import Zeno.Kv.FileMap

/-!
# What the operators compute

The values the operators of `tee.cpp` compute from the values of their
operands, without the stores.  Integers are 32 bits wide and wrap.  A division
that traps is undefined, and so is a substring that starts outside of the text.
Floating-point arithmetic, the powers of the C library and the bytes behind a
string on the heap are not in the source.  They are the parameters `Env`.
-/

namespace Zeno

/-- What the operators take from the machine and the C library. -/
structure Env where
  /-- `l + r` of `float`. -/
  floatAdd : Num.float.Val → Num.float.Val → Num.float.Val
  /-- `l - r` of `float`. -/
  floatSub : Num.float.Val → Num.float.Val → Num.float.Val
  /-- `l * r` of `float`. -/
  floatMult : Num.float.Val → Num.float.Val → Num.float.Val
  /-- `l / r` of `float`. -/
  floatDiv : Num.float.Val → Num.float.Val → Num.float.Val
  /-- `pow(l, r)`, cut back to `float`. -/
  floatPow : Num.float.Val → Num.float.Val → Num.float.Val
  /-- `fmod(l, r)`, cut back to `float`. -/
  floatMod : Num.float.Val → Num.float.Val → Num.float.Val
  /-- `l < r` of `float`. -/
  floatLt : Num.float.Val → Num.float.Val → Bool
  /-- `pow(l, r)`, cut back to `int`. -/
  intPow : Num.int.Val → Num.int.Val → Num.int.Val
  /-- The values of `double`. -/
  Double : Type
  /-- The `double` zero. -/
  doubleZero : Double
  /-- A `double` plus a `float`. -/
  doubleAdd : Double → Num.float.Val → Double
  /-- A `double` cut back to `float`. -/
  doubleToFloat : Double → Num.float.Val
  /-- The bytes behind a string on the heap. -/
  behind : CStr → Nat → UInt8

/-- Some machine, to run the model with. -/
def Env.trivial : Env where
  floatAdd l _ := l
  floatSub l _ := l
  floatMult l _ := l
  floatDiv l _ := l
  floatPow l _ := l
  floatMod l _ := l
  floatLt _ _ := false
  intPow l _ := l
  Double := Unit
  doubleZero := ()
  doubleAdd _ _ := ()
  doubleToFloat _ := 0
  behind _ _ := 0

/-! ## Integers -/

/-- The operands on which the division instruction traps. -/
def divTraps (l r : Num.int.Val) : Bool := r == 0 || l == BitVec.intMin 32 && r == -1

/-- `l / r` of `int`. -/
def intDiv (l r : Num.int.Val) : Option Num.int.Val :=
  if divTraps l r then none else some (l.sdiv r)

/-- `l % r` of `int`. -/
def intMod (l r : Num.int.Val) : Option Num.int.Val :=
  if divTraps l r then none else some (l.srem r)

/-- `l > r ? 1 : (l < r ? -1 : 0)`. -/
def threeWay (gt lt : Bool) : Int := if gt then 1 else if lt then -1 else 0

/-! ## Timestamps -/

/-- `USECS_PER_DAY`. -/
def usecsPerDay : Int := 86400000000

/-- `POSTGRES_EPOCH_JDATE`. -/
def postgresEpochJdate : Int := 2451545

/-- A value kept in an `unsigned int`. -/
def uint (n : Int) : Int := n % 2 ^ 32

/-- `TMODULO` by a day, and the correction of a negative remainder: the day. -/
def timestampDay (timestamp : Int) : Int :=
  let date := timestamp.tdiv usecsPerDay
  let timestamp := timestamp - date * usecsPerDay
  if timestamp < 0 then date - 1 else date

/-- `timestamp_extract_year`. -/
def timestampExtractYear (timestamp : Num.timestamp.Val) : Num.int.Val :=
  let date := timestampDay timestamp.toInt + postgresEpochJdate
  if date < 0 ∨ date > 2 ^ 31 - 1 then -1
  else
    let date := date + 32044
    let quad := uint (date.tdiv 146097)
    let extra := uint ((date - uint (quad * 146097)) * 4 + 3)
    let date := date + uint (60 + uint (quad * 3) + extra / 146097)
    let quad := uint (date.tdiv 1461)
    let date := date - uint (quad * 1461)
    BitVec.ofInt 32 ((date * 4).tdiv 1461 + uint (quad * 4) - 4800)

/-! ## Texts -/

/-- `strcpy` and `strcat` into a new buffer. -/
def textConcat (l r : CStr) : CStr :=
  ⟨l.bytes ++ r.bytes, fun h => (List.mem_append.mp h).elim l.nulFree r.nulFree⟩

/-- The buffer of `kv_text_substr`: `malloc(l + 1)`, and `strncpy` of `length` bytes from
`start - 1` on.  For `INT_MAX` the sum overflows and there is no buffer.  A copy of no bytes
reads none, and every other one reads the byte it starts from.  One that starts outside of
the text has no value here: what the code then finds is other bytes of the file, or of the
heap. -/
def textSubstr (t : CStr) (start length : Num.int.Val) : Option CStr :=
  let s := start.toInt - 1
  if 0 ≤ length.toInt ∧ length.toInt < 2 ^ 31 - 1 ∧ (length.toInt = 0 ∨ 0 ≤ s ∧ s ≤ t.length) then
    some ⟨(t.bytes.drop s.toNat).take length.toInt.toNat,
      fun h => t.nulFree (List.mem_of_mem_drop (List.mem_of_mem_take h))⟩
  else none

/-- The sign of `strcmp`.  How far the result is from zero is up to the C library, and no caller
looks at it. -/
def strcmp (l r : CStr) : Int :=
  threeWay (decide (r.bytes < l.bytes)) (decide (l.bytes < r.bytes))

/-- The wildcards after a `%`: each `_` takes a byte of the text, and the match is
given up where there is none. -/
def skipWildcards : List UInt8 → List UInt8 → Option (List UInt8 × List UInt8)
  | t, [] => some (t, [])
  | t, c :: p =>
      if c = 37 then skipWildcards t p
      else if c = 95 then
        match t with
        | [] => none
        | _ :: t => skipWildcards t p
      else some (t, c :: p)

/-- The first byte to look for after the wildcards.  A backslash must not end the pattern. -/
def firstPat : List UInt8 → Option UInt8
  | [] => none
  | c :: p => if c = 92 then p.head? else some c

/-- `MatchText` on a text and a pattern, with the recursion bounded by `fuel`.  The
pattern gets shorter with every turn of the loop and every call, so that its length plus
one is enough.  `LIKE_ABORT` is `LIKE_FALSE`. -/
def matchTextFuel : Nat → List UInt8 → List UInt8 → Bool
  | 0, _, _ => false
  -- the end of the text: what is left of the pattern must match nothing
  | _ + 1, [], p => p.all (· = 37)
  | _ + 1, _ :: _, [] => false
  | fuel + 1, b :: t, c :: p =>
      if c = 92 then
        match p with
        | [] => false
        | c' :: p => c' = b && matchTextFuel fuel t p
      else if c = 37 then
        match skipWildcards (b :: t) p with
        | none => false
        | some (_, []) => true
        | some (t, p) =>
            match firstPat p with
            | none => false
            | some first =>
                t.tails.any fun t => t.head? = some first && matchTextFuel fuel t p
      else if c = 95 then matchTextFuel fuel t p
      else c = b && matchTextFuel fuel t p

/-- What `MatchText` sees of a text, whose `strlen` it takes for an `int`: nothing, if that is
negative. -/
def likeBytes (t : CStr) : List UInt8 :=
  t.bytes.take (BitVec.ofNat 32 t.length).toInt.toNat

/-- `MatchText(t, strlen(t), p, strlen(p))`. -/
def matchText (t p : CStr) : Bool := matchTextFuel (p.length + 1) (likeBytes t) (likeBytes p)

end Zeno
