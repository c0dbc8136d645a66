/-!
# Decimals of a fixed number of places

A binary64 number that is finite is `±m · 2 ^ e` for whole `m` and `e`, so its decimal text of
`p` places is the whole number nearest to `m · 2 ^ e · 10 ^ p`, with a point before the last
`p` digits. Everything is computed in whole numbers, so the rounding is that of the exact
value; of two nearest numbers the even one is taken. The sign bit alone decides on the minus
sign, also in front of zero.
-/

namespace HomeChain.Text

/-- What the bits of a binary64 number say, apart from the sign. -/
inductive Magnitude where
  | nan
  | infinite
  /-- `m · 2 ^ e`. -/
  | finite (m : Nat) (e : Int)
deriving DecidableEq, Repr

/-- The magnitude with the given bits. -/
def Magnitude.ofBits (bits : UInt64) : Magnitude :=
  let exponent := ((bits >>> 52) &&& 0x7ff).toNat
  let fraction := (bits &&& 0xfffffffffffff).toNat
  if exponent = 0x7ff then
    if fraction = 0 then infinite else nan
  else if exponent = 0 then finite fraction (-1074)
  else finite (fraction + (1 <<< 52)) (exponent - 1075)

/-- The whole number nearest to `num / den`; of two, the even one. -/
def roundHalfEven (num den : Nat) : Nat :=
  let q := num / den
  let r := num % den
  if 2 * r < den then q
  else if den < 2 * r then q + 1
  else q + q % 2

/-- The whole number nearest to `m · 2 ^ e · 10 ^ places`. -/
def scaled (m : Nat) (e : Int) (places : Nat) : Nat :=
  match e with
  | .ofNat n => (m <<< n) * Nat.pow 10 places
  | .negSucc n => roundHalfEven (m * Nat.pow 10 places) (1 <<< (n + 1))

/-- `n / 10 ^ places` as a decimal. -/
def pointed (n places : Nat) : String :=
  let fraction := toString (n % Nat.pow 10 places)
  s!"{n / Nat.pow 10 places}." ++ "".pushn '0' (places - fraction.length) ++ fraction

/-- The decimal text of a number, with a fixed number of places. -/
def fixed (places : Nat) (x : Float) : String :=
  let bits := x.toBits
  let sign := if bits >>> 63 = 0 then "" else "-"
  match Magnitude.ofBits bits with
  | .nan => "NaN"
  | .infinite => sign ++ "inf"
  | .finite m e => sign ++ pointed (scaled m e places) places

end HomeChain.Text
