import Zeno.Lib.Wildcard
import Zeno.Tee.Calc

/-!
# Matching a text against a pattern

`LIKE` is told in terms of tokens (`patternTokens`): a backslash makes the next
byte of the pattern literal and must not be the last, `%` stands for any bytes
and `_` for one.  `Like` is then `Wildcard.Matches`.

`MatchText` walks over the two strings with pointers and the lengths left, which are
`int`s.  The model of it here (`MatchText.call`) reads through those pointers: a read
outside of a string has no result, and neither has a call that runs out of fuel or out
of stack.  The wildcards after a `%` are skipped first, and what is left of the pattern
then begins with a byte to look for, so that the search calls itself only where that
byte stands, and at most once for each `%` at a time.

`matchText`, which the handler of `CMD_TEXT_LIKE` uses, is the same algorithm over lists.
Of a text whose length does not fit an `int` both see a part, or nothing (`likeBytes`).
-/

namespace Zeno

open Wildcard (Token Matches)

/-! ## What a pattern means -/

/-- The tokens of a pattern.  A backslash at its end makes it match nothing. -/
def patternTokens : List UInt8 → Option (List (Token UInt8))
  | [] => some []
  | c :: p =>
      if c = 92 then
        match p with
        | [] => none
        | c' :: p => (patternTokens p).map (.lit c' :: ·)
      else if c = 37 then (patternTokens p).map (.many :: ·)
      else if c = 95 then (patternTokens p).map (.one :: ·)
      else (patternTokens p).map (.lit c :: ·)

/-- The text matches the pattern. -/
def Like (t p : List UInt8) : Prop := ∃ ts, patternTokens p = some ts ∧ Matches ts t

variable {t p : List UInt8} {b c : UInt8}

theorem patternTokens_escaped (c : UInt8) (p : List UInt8) :
    patternTokens (92 :: c :: p) = (patternTokens p).map (.lit c :: ·) := by
  rw [patternTokens.eq_def]
  rfl

theorem patternTokens_percent (p : List UInt8) :
    patternTokens (37 :: p) = (patternTokens p).map (.many :: ·) := by
  rw [patternTokens.eq_def]
  rfl

theorem patternTokens_underscore (p : List UInt8) :
    patternTokens (95 :: p) = (patternTokens p).map (.one :: ·) := by
  rw [patternTokens.eq_def]
  rfl

theorem patternTokens_byte (h₁ : c ≠ 92) (h₂ : c ≠ 37) (h₃ : c ≠ 95) (p : List UInt8) :
    patternTokens (c :: p) = (patternTokens p).map (.lit c :: ·) := by
  rw [patternTokens.eq_def]
  simp only [h₁, h₂, h₃, if_false]

theorem like_nil_iff : Like t [] ↔ t = [] := by
  simp [Like, patternTokens, Wildcard.matches_nil_iff]

theorem not_like_backslash : ¬ Like t [92] := by
  simp [Like, patternTokens]

/-- What a first token leaves to be matched. -/
theorem like_cons_iff {x : Token UInt8} {p' : List UInt8}
    (h : patternTokens p = (patternTokens p').map (x :: ·)) :
    Like t p ↔ ∃ ts, patternTokens p' = some ts ∧ Matches (x :: ts) t := by
  simp only [Like, h, Option.map_eq_some_iff]
  constructor
  · rintro ⟨-, ⟨ts, hts, rfl⟩, h⟩
    exact ⟨ts, hts, h⟩
  · rintro ⟨ts, hts, h⟩
    exact ⟨_, ⟨ts, hts, rfl⟩, h⟩

/-- A literal first token takes its byte. -/
theorem like_lit_iff {p' : List UInt8}
    (h : patternTokens p = (patternTokens p').map (.lit c :: ·)) :
    Like (b :: t) p ↔ c = b ∧ Like t p' := by
  simp only [like_cons_iff h, Wildcard.matches_lit_cons_iff]
  constructor
  · rintro ⟨ts, hts, rfl, h⟩
    exact ⟨rfl, ts, hts, h⟩
  · rintro ⟨rfl, ts, hts, h⟩
    exact ⟨ts, hts, rfl, h⟩

theorem like_escaped_iff : Like (b :: t) (92 :: c :: p) ↔ c = b ∧ Like t p :=
  like_lit_iff (patternTokens_escaped c p)

theorem like_underscore_iff : Like (b :: t) (95 :: p) ↔ Like t p := by
  simp only [like_cons_iff (patternTokens_underscore p), Wildcard.matches_one_cons_iff]
  rfl

theorem like_byte_iff (h₁ : c ≠ 92) (h₂ : c ≠ 37) (h₃ : c ≠ 95) :
    Like (b :: t) (c :: p) ↔ c = b ∧ Like t p :=
  like_lit_iff (patternTokens_byte h₁ h₂ h₃ p)

theorem like_percent_iff : Like t (37 :: p) ↔ ∃ u, u <:+ t ∧ Like u p := by
  simp only [like_cons_iff (patternTokens_percent p), Wildcard.matches_many_iff]
  constructor
  · rintro ⟨ts, hts, u, hu, h⟩
    exact ⟨u, hu, ts, hts, h⟩
  · rintro ⟨u, hu, ts, hts, h⟩
    exact ⟨ts, hts, u, hu, h⟩

/-- The empty text matches a pattern of `%` only. -/
theorem like_empty_iff : Like [] p ↔ ∀ c ∈ p, c = 37 := by
  induction p with
  | nil => simp [like_nil_iff]
  | cons c p ih =>
      by_cases hc : c = 37
      · subst hc
        rw [like_percent_iff]
        simp [ih]
      · -- the first token takes a byte
        have hnot : ¬ Like [] (c :: p) := by
          by_cases h₁ : c = 92
          · subst h₁
            cases p with
            | nil => exact not_like_backslash
            | cons c' p =>
                rw [like_cons_iff (patternTokens_escaped c' p)]
                rintro ⟨ts, -, h⟩
                exact Wildcard.not_matches_lit_nil h
          · by_cases h₃ : c = 95
            · subst h₃
              rw [like_cons_iff (patternTokens_underscore p)]
              rintro ⟨ts, -, h⟩
              exact Wildcard.not_matches_one_nil h
            · rw [like_cons_iff (patternTokens_byte h₁ hc h₃ p)]
              rintro ⟨ts, -, h⟩
              exact Wildcard.not_matches_lit_nil h
        simp [hnot, hc]

/-- A pattern that does not end in a single backslash matches some text, no longer than
itself. -/
theorem exists_like (h : patternTokens p ≠ none) (nul : 0 ∉ p) :
    ∃ t, t.length ≤ p.length ∧ 0 ∉ t ∧ Like t p := by
  induction p using patternTokens.induct with
  | case1 => exact ⟨[], Nat.le_refl _, nul, like_nil_iff.mpr rfl⟩
  | case2 => exact absurd rfl h
  | case3 c p ih =>
      rw [patternTokens_escaped, Ne, Option.map_eq_none_iff] at h
      simp only [List.mem_cons, not_or] at nul
      obtain ⟨t, hlen, ht, hlike⟩ := ih h nul.2.2
      refine ⟨c :: t, Nat.succ_le_succ (Nat.le_succ_of_le hlen), ?_,
        like_escaped_iff.mpr ⟨rfl, hlike⟩⟩
      simp [nul.2.1, ht]
  | case4 p hne ih =>
      rw [patternTokens_percent, Ne, Option.map_eq_none_iff] at h
      obtain ⟨t, hlen, ht, hlike⟩ := ih h (List.not_mem_of_not_mem_cons nul)
      exact ⟨t, Nat.le_succ_of_le hlen, ht, like_percent_iff.mpr ⟨t, List.suffix_rfl, hlike⟩⟩
  | case5 p hne₁ hne₂ ih =>
      rw [patternTokens_underscore, Ne, Option.map_eq_none_iff] at h
      obtain ⟨t, hlen, ht, hlike⟩ := ih h (List.not_mem_of_not_mem_cons nul)
      refine ⟨97 :: t, Nat.succ_le_succ hlen, ?_, like_underscore_iff.mpr hlike⟩
      simp [ht]
  | case6 c p h₁ h₂ h₃ ih =>
      rw [patternTokens_byte h₁ h₂ h₃, Ne, Option.map_eq_none_iff] at h
      simp only [List.mem_cons, not_or] at nul
      obtain ⟨t, hlen, ht, hlike⟩ := ih h nul.2
      refine ⟨c :: t, Nat.succ_le_succ hlen, ?_, (like_byte_iff h₁ h₂ h₃).mpr ⟨rfl, hlike⟩⟩
      simp [nul.1, ht]

/-- Every text matches the pattern, or none: one or more `%` alone, or a single backslash at
the end. -/
def ConstantPattern (p : List UInt8) : Prop :=
  (p ≠ [] ∧ ∀ c ∈ p, c = 37) ∨ patternTokens p = none

theorem like_of_percents (hne : p ≠ []) (h : ∀ c ∈ p, c = 37) (t : List UInt8) : Like t p := by
  cases p with
  | nil => exact absurd rfl hne
  | cons c p =>
      obtain rfl := h c List.mem_cons_self
      have hrest : Like [] p := like_empty_iff.mpr fun c hc => h c (List.mem_cons_of_mem _ hc)
      exact like_percent_iff.mpr ⟨[], List.nil_suffix, hrest⟩

theorem ConstantPattern.like_iff (h : ConstantPattern p) (t t' : List UInt8) :
    Like t p ↔ Like t' p := by
  rcases h with ⟨hne, hall⟩ | hnone
  · exact iff_of_true (like_of_percents hne hall t) (like_of_percents hne hall t')
  · refine iff_of_false ?_ ?_ <;> rintro ⟨ts, hts, -⟩ <;> simp [hnone] at hts

/-- Every other pattern matches one text and does not match another. -/
theorem exists_like_of_not_constant (h : ¬ ConstantPattern p) (nul : 0 ∉ p) :
    (∃ t, t.length ≤ p.length ∧ 0 ∉ t ∧ Like t p) ∧ ∃ t, t.length ≤ 1 ∧ 0 ∉ t ∧ ¬ Like t p := by
  rw [ConstantPattern, not_or] at h
  refine ⟨exists_like h.2 nul, ?_⟩
  by_cases hp : p = []
  · subst hp
    refine ⟨[97], Nat.le_refl _, by decide, ?_⟩
    rw [like_nil_iff]
    exact List.cons_ne_nil _ _
  · refine ⟨[], Nat.zero_le _, List.not_mem_nil, ?_⟩
    rw [like_empty_iff]
    exact fun hall => h.1 ⟨hp, hall⟩

/-! ## The wildcards after a percent sign -/

theorem like_percent_percent_iff : Like t (37 :: 37 :: p) ↔ Like t (37 :: p) := by
  simp only [Like, patternTokens_percent, Option.map_map, Option.map_eq_some_iff,
    Function.comp_apply]
  constructor
  · rintro ⟨-, ⟨ts, hts, rfl⟩, h⟩
    exact ⟨_, ⟨ts, hts, rfl⟩, Wildcard.matches_many_many_iff.mp h⟩
  · rintro ⟨-, ⟨ts, hts, rfl⟩, h⟩
    exact ⟨_, ⟨ts, hts, rfl⟩, Wildcard.matches_many_many_iff.mpr h⟩

/-- A `_` after a `%` takes the first byte. -/
theorem like_percent_underscore_iff :
    Like t (37 :: 95 :: p) ↔ ∃ b u, t = b :: u ∧ Like u (37 :: p) := by
  have hswap : Like t (37 :: 95 :: p) ↔ Like t (95 :: 37 :: p) := by
    simp only [Like, patternTokens_percent, patternTokens_underscore, Option.map_map,
      Option.map_eq_some_iff, Function.comp_apply]
    constructor
    · rintro ⟨-, ⟨ts, hts, rfl⟩, h⟩
      exact ⟨_, ⟨ts, hts, rfl⟩, Wildcard.matches_many_one_iff.mp h⟩
    · rintro ⟨-, ⟨ts, hts, rfl⟩, h⟩
      exact ⟨_, ⟨ts, hts, rfl⟩, Wildcard.matches_many_one_iff.mpr h⟩
  rw [hswap]
  cases t with
  | nil =>
      rw [like_empty_iff]
      simp
  | cons b u =>
      rw [like_underscore_iff]
      simp

/-- The wildcards are skipped without changing what is matched. -/
theorem like_skipWildcards (t p : List UInt8) :
    Like t (37 :: p) ↔ ∃ t' p', skipWildcards t p = some (t', p') ∧ Like t' (37 :: p') := by
  induction p generalizing t with
  | nil => simp [skipWildcards]
  | cons c p ih =>
      unfold skipWildcards
      split
      next hc =>
        subst hc
        rw [like_percent_percent_iff]
        exact ih t
      next h₁ =>
        split
        next hc =>
          subst hc
          rw [like_percent_underscore_iff]
          cases t with
          | nil => simp
          | cons b u =>
              rw [← ih u]
              simp
        next h₂ => simp

/-- What is left of the pattern begins with no wildcard. -/
theorem skipWildcards_head {t p t' p' : List UInt8} {c : UInt8}
    (h : skipWildcards t p = some (t', c :: p')) : c ≠ 37 ∧ c ≠ 95 := by
  induction p generalizing t with
  | nil => simp [skipWildcards] at h
  | cons d p ih =>
      unfold skipWildcards at h
      split at h
      next => exact ih h
      next h₁ =>
        split at h
        next =>
          cases t with
          | nil => cases h
          | cons b u => exact ih h
        next h₂ =>
          cases h
          exact ⟨h₁, h₂⟩

/-- Only the start of the pattern and of the text is skipped. -/
theorem skipWildcards_suffix {t p t' p' : List UInt8} (h : skipWildcards t p = some (t', p')) :
    p' <:+ p ∧ t' <:+ t := by
  induction p generalizing t with
  | nil =>
      cases h
      exact ⟨List.suffix_rfl, List.suffix_rfl⟩
  | cons d p ih =>
      unfold skipWildcards at h
      split at h
      next =>
        obtain ⟨hp, ht⟩ := ih h
        exact ⟨hp.trans (List.suffix_cons d p), ht⟩
      next =>
        split at h
        next =>
          cases t with
          | nil => cases h
          | cons b u =>
              obtain ⟨hp, ht⟩ := ih h
              exact ⟨hp.trans (List.suffix_cons d p), ht.trans (List.suffix_cons b u)⟩
        next =>
          cases h
          exact ⟨List.suffix_rfl, List.suffix_rfl⟩

/-! ## The search -/

/-- A match of a pattern that begins with no wildcard begins with the byte looked for. -/
theorem Like.head_eq {u : List UInt8} (h : Like u (c :: p)) (h₁ : c ≠ 37) (h₂ : c ≠ 95) :
    ∃ first, firstPat (c :: p) = some first ∧ u.head? = some first := by
  cases u with
  | nil => exact absurd (like_empty_iff.mp h c List.mem_cons_self) h₁
  | cons b u =>
      by_cases hc : c = 92
      · subst hc
        cases p with
        | nil => exact absurd h not_like_backslash
        | cons c' p =>
            obtain ⟨rfl, -⟩ := like_escaped_iff.mp h
            exact ⟨c', rfl, rfl⟩
      · obtain ⟨rfl, -⟩ := (like_byte_iff hc h₁ h₂).mp h
        refine ⟨c, ?_, rfl⟩
        simp [firstPat, hc]

/-- So it is enough to look where that byte stands. -/
theorem like_search_iff (h₁ : c ≠ 37) (h₂ : c ≠ 95) :
    Like t (37 :: c :: p) ↔ ∃ first, firstPat (c :: p) = some first ∧
      ∃ u, u <:+ t ∧ u.head? = some first ∧ Like u (c :: p) := by
  rw [like_percent_iff]
  constructor
  · rintro ⟨u, hu, h⟩
    obtain ⟨first, hfirst, hhead⟩ := h.head_eq h₁ h₂
    exact ⟨first, hfirst, u, hu, hhead, h⟩
  · rintro ⟨first, -, u, hu, -, h⟩
    exact ⟨u, hu, h⟩

/-! ## The matcher over lists -/

/-- The search after a `%`, with a matcher that is right about what is left of the pattern. -/
theorem matchTextFuel_percent_iff {fuel : Nat} {b : UInt8}
    (hlike : ∀ u q, q.length ≤ p.length → (matchTextFuel fuel u q = true ↔ Like u q)) :
    matchTextFuel (fuel + 1) (b :: t) (37 :: p) = true ↔ Like (b :: t) (37 :: p) := by
  rw [matchTextFuel.eq_def]
  dsimp only
  rw [if_neg (by decide), if_pos rfl, like_skipWildcards]
  split
  next heq => simp [heq]
  next t' heq =>
    simp only [heq, Option.some.injEq, Prod.mk.injEq, true_iff]
    exact ⟨t', [], ⟨rfl, rfl⟩, like_percent_iff.mpr
      ⟨[], List.nil_suffix, like_nil_iff.mpr rfl⟩⟩
  next t' p' hne heq =>
    obtain ⟨c', p', rfl⟩ := List.exists_cons_of_ne_nil hne
    obtain ⟨h₁, h₂⟩ := skipWildcards_head heq
    have hlen := (skipWildcards_suffix heq).1.length_le
    have hout : (∃ t'' p'', skipWildcards (b :: t) p = some (t'', p'') ∧
        Like t'' (37 :: p'')) ↔ Like t' (37 :: c' :: p') := by
      simp [heq]
    rw [hout, like_search_iff h₁ h₂]
    cases hfirst : firstPat (c' :: p') with
    | none => simp
    | some first => simp [hlike _ _ hlen, List.mem_tails]

theorem matchTextFuel_iff {fuel : Nat} (h : p.length < fuel) :
    matchTextFuel fuel t p = true ↔ Like t p := by
  induction fuel generalizing t p with
  | zero => omega
  | succ fuel ih =>
      cases t with
      | nil =>
          rw [like_empty_iff, matchTextFuel]
          simp
      | cons b t =>
          cases p with
          | nil => simp [matchTextFuel, like_nil_iff]
          | cons c p =>
              rw [List.length_cons] at h
              by_cases h₂ : c = 37
              · subst h₂
                exact matchTextFuel_percent_iff fun u q hq => ih (by omega)
              · rw [matchTextFuel.eq_def]
                dsimp only
                split
                next hc =>
                  subst hc
                  cases p with
                  | nil => simp [not_like_backslash]
                  | cons c' p =>
                      rw [List.length_cons] at h
                      rw [like_escaped_iff, ← ih (by omega : p.length < fuel)]
                      simp
                next h₁ =>
                  split
                  next hc =>
                    subst hc
                    rw [like_underscore_iff]
                    exact ih (by omega)
                  next h₃ =>
                    rw [like_byte_iff h₁ h₂ h₃, ← ih (by omega : p.length < fuel)]
                    simp

instance (t p : List UInt8) : Decidable (Like t p) :=
  decidable_of_iff _ (matchTextFuel_iff (Nat.lt_succ_self p.length))

/-! ## The matcher over pointers -/

/-- `LIKE_TRUE`. -/
def likeTrue : Int := 1

/-- `LIKE_FALSE`. -/
def likeFalse : Int := 0

/-- `LIKE_ABORT`. -/
def likeAbort : Int := 0

namespace MatchText

/-- The arguments of `MatchText` as it moves them on. -/
structure Cursor where
  /-- `t`, from the start of the text. -/
  t : Nat
  /-- `tlen`, an `int`. -/
  tlen : BitVec 32
  /-- `p`, from the start of the pattern. -/
  p : Nat
  /-- `plen`, an `int`. -/
  plen : BitVec 32

/-- `NextByte(t, tlen)` and `NextChar(t, tlen)`. -/
def Cursor.nextT (c : Cursor) : Cursor := { c with t := c.t + 1, tlen := c.tlen - 1 }

/-- `NextByte(p, plen)`. -/
def Cursor.nextP (c : Cursor) : Cursor := { c with p := c.p + 1, plen := c.plen - 1 }

section Definitions

variable (t p : List UInt8)

/-- The loop over the wildcards after a `%`.  `some none` is the return of `LIKE_ABORT`. -/
def skip : Nat → Cursor → Option (Option Cursor)
  | 0, _ => none
  | fuel + 1, c =>
      if 0 < c.plen.toInt then do
        let b ← p[c.p]?
        if b = 37 then skip fuel c.nextP
        else if b = 95 then
          if c.tlen.toInt ≤ 0 then some none else skip fuel c.nextT.nextP
        else some (some c)
      else some (some c)

/-- The loop over the `%` after the end of the text. -/
def skipPercents : Nat → Cursor → Option Cursor
  | 0, _ => none
  | fuel + 1, c =>
      if 0 < c.plen.toInt then do
        let b ← p[c.p]?
        if b = 37 then skipPercents fuel c.nextP else some c
      else some c

mutual

/-- `MatchText`, on a stack with room for `frames` calls of it. -/
def call : Nat → Nat → Cursor → Option Int
  | 0, _, _ => none
  -- `check_stack_depth` is commented out
  | _ + 1, 0, _ => none
  | fuel + 1, frames + 1, c =>
      -- the fast path
      if c.plen = 1 then do
        let b ← p[c.p]?
        if b = 37 then some likeTrue else loop fuel frames c
      else loop fuel frames c

/-- Its loop, and what follows it. -/
def loop : Nat → Nat → Cursor → Option Int
  | 0, _, _ => none
  | fuel + 1, frames, c =>
      if 0 < c.tlen.toInt ∧ 0 < c.plen.toInt then do
        let b ← p[c.p]?
        if b = 92 then
          let c := c.nextP
          if c.plen.toInt ≤ 0 then some likeAbort
          else do
            let pb ← p[c.p]?
            let tb ← t[c.t]?
            if pb ≠ tb then some likeFalse else loop fuel frames c.nextT.nextP
        else if b = 37 then do
          match ← skip p fuel c.nextP with
          | none => some likeAbort
          | some c =>
              if c.plen.toInt ≤ 0 then some likeTrue
              else do
                let b ← p[c.p]?
                if b = 92 then
                  if c.plen.toInt < 2 then some likeAbort
                  else do
                    let firstpat ← p[c.p + 1]?
                    search fuel frames firstpat c
                else search fuel frames b c
        else if b = 95 then loop fuel frames c.nextT.nextP
        else do
          let tb ← t[c.t]?
          if b ≠ tb then some likeFalse else loop fuel frames c.nextT.nextP
      else if 0 < c.tlen.toInt then some likeFalse
      else do
        let c ← skipPercents p fuel c
        if c.plen.toInt ≤ 0 then some likeTrue else some likeAbort

/-- The scan for a text position at which the rest of the pattern matches. -/
def search : Nat → Nat → UInt8 → Cursor → Option Int
  | 0, _, _, _ => none
  | fuel + 1, frames, firstpat, c =>
      if 0 < c.tlen.toInt then do
        let tb ← t[c.t]?
        if tb = firstpat then do
          let matched ← call fuel frames c
          if matched ≠ likeFalse then some matched else search fuel frames firstpat c.nextT
        else search fuel frames firstpat c.nextT
      else some likeAbort

end

/-- The arguments of the call in `kv_text_like`. -/
def start : Cursor := ⟨0, BitVec.ofNat 32 t.length, 0, BitVec.ofNat 32 p.length⟩

end Definitions

/-- An `int` that is not negative can be counted down. -/
theorem toInt_sub_one {x : BitVec 32} (h : 0 < x.toInt) : (x - 1).toInt = x.toInt - 1 := by
  have hlt := BitVec.toInt_lt (x := x)
  have hone : (1 : BitVec 32).toInt = 1 := rfl
  rw [BitVec.toInt_sub, hone, Int.bmod_eq_of_le (by omega) (by omega)]

/-- The cursor stands before the bytes `tl` of the text and `pl` of the pattern, which are as
many as the lengths say. -/
structure At (t p : List UInt8) (c : Cursor) (tl pl : List UInt8) : Prop where
  text : tl <+: t.drop c.t
  tlen : tl.length = c.tlen.toInt.toNat
  pattern : pl <+: p.drop c.p
  plen : pl.length = c.plen.toInt.toNat

variable {t p tl pl : List UInt8} {c : Cursor} {b : UInt8}

theorem toNat_ofNat_of_lt {n : Nat} (h : n < 2 ^ 31) : (BitVec.ofNat 32 n).toInt.toNat = n := by
  have hmod : n % 2 ^ 32 = n := Nat.mod_eq_of_lt (by omega)
  rw [BitVec.toInt_eq_toNat_cond, BitVec.toNat_ofNat, hmod, if_pos (by omega), Int.toNat_natCast]

theorem prefix_drop_succ {l xs : List UInt8} {i : Nat} (h : (b :: xs) <+: l.drop i) :
    xs <+: l.drop (i + 1) := by
  obtain ⟨rest, hrest⟩ := h
  rw [← List.tail_drop, ← hrest]
  exact List.prefix_append xs rest

theorem At.tlen_pos (h : At t p c (b :: tl) pl) : 0 < c.tlen.toInt := by
  have hlen := h.tlen
  rw [List.length_cons] at hlen
  omega

theorem At.plen_pos (h : At t p c tl (b :: pl)) : 0 < c.plen.toInt := by
  have hlen := h.plen
  rw [List.length_cons] at hlen
  omega

theorem At.nextT (h : At t p c (b :: tl) pl) : At t p c.nextT tl pl := by
  refine ⟨prefix_drop_succ h.text, ?_, h.pattern, h.plen⟩
  have hlen := h.tlen
  have hsub := toInt_sub_one h.tlen_pos
  simp only [Cursor.nextT, List.length_cons] at hlen ⊢
  omega

theorem At.nextP (h : At t p c tl (b :: pl)) : At t p c.nextP tl pl := by
  refine ⟨h.text, h.tlen, prefix_drop_succ h.pattern, ?_⟩
  have hlen := h.plen
  have hsub := toInt_sub_one h.plen_pos
  simp only [Cursor.nextP, List.length_cons] at hlen ⊢
  omega

/-- The `%` of a pattern: at each of them `MatchText` calls itself once more. -/
def percents (pl : List UInt8) : Nat := pl.count 37

end MatchText

theorem length_likeBytes_le (t : CStr) : (likeBytes t).length ≤ t.length := by
  rw [likeBytes, List.length_take]
  exact Nat.min_le_right _ _

/-- A text whose length is an `int` is seen whole. -/
theorem likeBytes_of_lt {t : CStr} (h : t.length < 2 ^ 31) : (likeBytes t) = t.bytes := by
  rw [likeBytes, MatchText.toNat_ofNat_of_lt h]
  exact List.take_length

theorem matchText_iff (t p : CStr) : matchText t p = true ↔ Like (likeBytes t) (likeBytes p) :=
  matchTextFuel_iff (Nat.lt_succ_of_le (length_likeBytes_le p))

theorem matchText_iff_of_lt {t p : CStr} (ht : t.length < 2 ^ 31) (hp : p.length < 2 ^ 31) :
    matchText t p = true ↔ Like t.bytes p.bytes := by
  rw [matchText_iff, likeBytes_of_lt ht, likeBytes_of_lt hp]

end Zeno
