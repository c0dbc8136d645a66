import HomeChain.Table.Iteration
import HomeChain.Text.Outline
import HomeChain.Text.Quoted

/-!
# How values are shown

The outlines of keys, values and tables. A table is shown as its entries, in the order of
iteration.
-/

namespace HomeChain.Text

/-- A type of values that can be shown. -/
class Inspect (α : Type) where
  /-- The outline of a value. -/
  outline : α → Outline

export Inspect (outline)

instance {signed : Bool} {bits : Nat} : Inspect (IntegerKey signed bits) where
  outline k := .text (toString k.toInt)

instance : Inspect Int64 where
  outline n := .text (toString n.toInt)

instance : Inspect Bool where
  outline b := .text (if b then "true" else "false")

instance : Inspect Char where
  outline c := .text (quoteChar c)

instance : Inspect String where
  outline s := .text (quoteString s)

instance : Inspect Unit where
  outline _ := .text "()"

instance {α : Type} [Inspect α] : Inspect (Option α) where
  outline
    | none => .text "None"
    | some a => .group "Some(" [outline a] ")"

instance {α β : Type} [Inspect α] [Inspect β] : Inspect (α × β) where
  outline p := .group "(" [outline p.1, outline p.2] ")"

instance {α : Type} {n : Nat} [Inspect α] : Inspect (Vector α n) where
  outline v := .group "[" (v.toList.map outline) "]"

instance {w : LinkWidth} {K V : Type} [Inspect K] [Inspect V] : Inspect (Table w K V) where
  outline t :=
    .group "\x7b" (t.entries.map fun (k, v) => .entry (outline k) (outline v)) "\x7d"

end HomeChain.Text
