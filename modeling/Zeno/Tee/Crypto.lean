import Mathlib.Data.List.Induction
import Zeno.Lib.Bytes

/-!
# The cipher of the server

`crypto.cpp` wraps AES-GCM.  A message is laid out as the initialization
vector, the tag and the ciphertext.  The vector is a counter of the worker,
incremented before each encryption.  The cipher itself is a parameter: a `Gcm`
is any pair of functions in which decryption undoes encryption.

`increment` runs over the bytes from the last to the first and stops at the first
byte it does not have to clear.  `incrementBytes` is the same carry by recursion on
the bytes (`incrementLoop_append`), and it adds one to the big-endian number the
bytes hold (`ofBe_increment`).
-/

namespace Zeno

/-- `IV_SIZE`. -/
def ivSize : Nat := 12

/-- `TAG_SIZE`. -/
def tagSize : Nat := 16

/-- An initialization vector. -/
structure Iv where
  /-- Its bytes, the most significant first. -/
  bytes : List UInt8
  /-- It has `IV_SIZE` of them. -/
  length_eq : bytes.length = ivSize

/-- A counter that has not moved, to run the model with. -/
def Iv.zero : Iv := ⟨List.replicate ivSize 0, rfl⟩

/-- The loop of `increment` from the last byte on, with the carry out of the first. -/
def incrementBytes : List UInt8 → List UInt8 × Bool
  | [] => ([], true)
  | b :: bs =>
      match incrementBytes bs with
      | (bs', false) => (b :: bs', false)
      | (bs', true) => if b = 0xFF then (0 :: bs', true) else ((b + 1) :: bs', false)

theorem length_incrementBytes (bs : List UInt8) : (incrementBytes bs).1.length = bs.length := by
  induction bs with
  | nil => rfl
  | cons b bs ih =>
      simp only [incrementBytes]
      split
      next bs' heq => simpa [heq] using ih
      next bs' heq =>
        rw [heq] at ih
        split <;> simpa using ih

/-- The loop of `increment`, with `i` bytes still to visit. -/
def incrementLoop : Nat → List UInt8 → List UInt8
  | 0, buf => buf
  | i + 1, buf =>
      if buf.getD i 0 = 0xFF then incrementLoop i (buf.set i 0)
      else buf.set i (buf.getD i 0 + 1)

/-- `increment`, on the first `size` bytes of a buffer. -/
def increment (buf : List UInt8) (size : Nat) : List UInt8 := incrementLoop size buf

theorem incrementBytes_concat (bs : List UInt8) (b : UInt8) :
    incrementBytes (bs ++ [b]) =
      if b = 0xFF then ((incrementBytes bs).1 ++ [0], (incrementBytes bs).2)
      else (bs ++ [b + 1], false) := by
  induction bs with
  | nil => simp [incrementBytes]
  | cons c bs ih =>
      simp only [List.cons_append, incrementBytes, ih]
      by_cases hb : b = 0xFF
      · -- the carry into `c` is that of the bytes without the last
        simp only [if_pos hb]
        obtain ⟨bs', carry⟩ := incrementBytes bs
        cases carry with
        | false => rfl
        | true =>
            dsimp only
            split <;> rfl
      · simp only [if_neg hb]

/-- The loop carries through the front of a buffer and leaves the bytes behind it. -/
theorem incrementLoop_append (front rest : List UInt8) :
    incrementLoop front.length (front ++ rest) = (incrementBytes front).1 ++ rest := by
  induction front using List.reverseRecOn generalizing rest with
  | nil => rfl
  | append_singleton bs b ih =>
      have hget : (bs ++ [b] ++ rest).getD bs.length 0 = b := by simp
      have hset : ∀ c, (bs ++ [b] ++ rest).set bs.length c = bs ++ (c :: rest) := by simp
      rw [List.length_append, List.length_singleton, incrementLoop, hget, hset, hset, ih,
        incrementBytes_concat]
      split <;> simp

theorem increment_eq_incrementBytes (buf : List UInt8) :
    increment buf buf.length = (incrementBytes buf).1 := by
  have hloop := incrementLoop_append buf []
  rwa [List.append_nil, List.append_nil] at hloop

theorem length_increment {buf : List UInt8} {size : Nat} (h : buf.length = size) :
    (increment buf size).length = size := by
  subst h
  rw [increment_eq_incrementBytes, length_incrementBytes]

/-- The carry adds one, up to what leaves the first byte. -/
theorem ofBe_incrementBytes (bs : List UInt8) :
    Bytes.ofBe (incrementBytes bs).1 + (if (incrementBytes bs).2 then 256 ^ bs.length else 0) =
      Bytes.ofBe bs + 1 := by
  induction bs with
  | nil => rfl
  | cons b bs ih =>
      have hlen := length_incrementBytes bs
      cases hbs : incrementBytes bs with
      | mk bs' carry =>
      rw [hbs] at ih hlen
      cases carry with
      | false =>
          simp only [incrementBytes, hbs, Bytes.ofBe, hlen, Bool.false_eq_true, if_false] at ih ⊢
          omega
      | true =>
          simp only [if_true] at ih
          by_cases hb : b = 0xFF
          · subst hb
            simp only [incrementBytes, hbs, if_true, Bytes.ofBe, hlen, List.length_cons,
              Nat.pow_succ]
            show 0 * 256 ^ bs.length + _ + _ = 255 * 256 ^ bs.length + _ + _
            omega
          · simp only [incrementBytes, hbs, hb, if_false, Bytes.ofBe, hlen,
              Bytes.toNat_add_one hb, Nat.succ_mul, Bool.false_eq_true]
            omega

/-- `increment` adds one to the big-endian number in a buffer, modulo what fits. -/
theorem ofBe_increment {buf : List UInt8} {size : Nat} (h : buf.length = size) :
    Bytes.ofBe (increment buf size) = (Bytes.ofBe buf + 1) % 256 ^ size := by
  subst h
  have hlt := Bytes.ofBe_lt (incrementBytes buf).1
  rw [length_incrementBytes] at hlt
  rw [increment_eq_incrementBytes, ← ofBe_incrementBytes]
  split
  next => rw [Nat.add_mod_right, Nat.mod_eq_of_lt hlt]
  next => rw [Nat.add_zero, Nat.mod_eq_of_lt hlt]

-- The carry passes two bytes and stops at the first, and the byte behind is not touched.
example : increment [1, 0xFF, 0xFF, 9] 3 = [2, 0, 0, 9] := by decide

/-- `increment`. -/
def Iv.increment (iv : Iv) : Iv :=
  ⟨(incrementBytes iv.bytes).1, (length_incrementBytes iv.bytes).trans iv.length_eq⟩

theorem Iv.increment_bytes (iv : Iv) : iv.increment.bytes = Zeno.increment iv.bytes ivSize := by
  rw [← iv.length_eq, increment_eq_incrementBytes]
  rfl

/-- The number a vector holds. -/
def Iv.value (iv : Iv) : Nat := Bytes.ofBe iv.bytes

theorem Iv.value_increment (iv : Iv) :
    iv.increment.value = (iv.value + 1) % 256 ^ ivSize := by
  rw [Iv.value, iv.increment_bytes, ofBe_increment iv.length_eq]
  rfl

/-- AES-GCM under the key of the server. -/
structure Gcm where
  /-- `mbedtls_gcm_crypt_and_tag`: the tag and the ciphertext. -/
  cryptAndTag : Iv → List UInt8 → List UInt8 × List UInt8
  /-- `mbedtls_gcm_auth_decrypt` of a vector, a tag and a ciphertext. -/
  authDecrypt : List UInt8 → List UInt8 → List UInt8 → Option (List UInt8)
  /-- A tag has `TAG_SIZE` bytes. -/
  length_tag : ∀ iv data, (cryptAndTag iv data).1.length = tagSize
  /-- A ciphertext is as long as its plaintext. -/
  length_data : ∀ iv data, (cryptAndTag iv data).2.length = data.length
  /-- Decryption undoes encryption. -/
  authDecrypt_cryptAndTag : ∀ iv data,
    authDecrypt iv.bytes (cryptAndTag iv data).1 (cryptAndTag iv data).2 = some data

/-- `gcm_encrypt`: the counter of the worker, and the message. -/
def gcmEncrypt (g : Gcm) (iv : Iv) (input : List UInt8) : Iv × List UInt8 :=
  let iv' := iv.increment
  let (tag, data) := g.cryptAndTag iv' input
  (iv', iv'.bytes ++ tag ++ data)

/-- `encrypt_bytes`: what `gcm_encrypt` leaves, and whether its length passes the check
that follows. -/
def encryptBytes (g : Gcm) (iv : Iv) (src : List UInt8) (expDstLen : Nat) :
    (Iv × List UInt8) × Bool :=
  (gcmEncrypt g iv src, src.length + ivSize + tagSize = expDstLen)

/-- `gcm_decrypt`: the plaintext and the size reported for it.  The size is kept in 32
bits. -/
def gcmDecrypt (g : Gcm) (input : List UInt8) : Option (List UInt8 × Nat) :=
  let dataSz := (input.length - ivSize - tagSize) % 2 ^ 32
  let data := (input.drop (ivSize + tagSize)).take dataSz
  (g.authDecrypt (input.take ivSize) ((input.drop ivSize).take tagSize) data).map
    fun out => (out, dataSz)

theorem length_gcmEncrypt (g : Gcm) (iv : Iv) (input : List UInt8) :
    (gcmEncrypt g iv input).2.length = ivSize + tagSize + input.length := by
  simp [gcmEncrypt, g.length_tag, g.length_data, iv.increment.length_eq, Nat.add_assoc]

/-- A message starts with the vector the worker has moved on to. -/
theorem take_gcmEncrypt (g : Gcm) (iv : Iv) (input : List UInt8) :
    (gcmEncrypt g iv input).2.take ivSize = iv.increment.bytes := by
  have hlen := iv.increment.length_eq
  simp only [gcmEncrypt, List.append_assoc, List.take_left' hlen]

theorem gcmDecrypt_gcmEncrypt (g : Gcm) (iv : Iv) {input : List UInt8}
    (h : input.length < 2 ^ 32) :
    gcmDecrypt g (gcmEncrypt g iv input).2 = some (input, input.length) := by
  have htag := g.length_tag iv.increment input
  have hdata := g.length_data iv.increment input
  have hiv := iv.increment.length_eq
  have hsz : ((gcmEncrypt g iv input).2.length - ivSize - tagSize) % 2 ^ 32 = input.length := by
    rw [length_gcmEncrypt]
    simp only [ivSize, tagSize]
    omega
  have hsplit : (gcmEncrypt g iv input).2 =
      iv.increment.bytes ++ ((g.cryptAndTag iv.increment input).1 ++
        (g.cryptAndTag iv.increment input).2) := by
    simp [gcmEncrypt]
  simp only [gcmDecrypt, hsz]
  rw [hsplit, List.take_left' hiv, ← List.drop_drop, List.drop_left' hiv, List.take_left' htag,
    List.drop_left' htag, List.take_of_length_le (by omega), g.authDecrypt_cryptAndTag]
  rfl

/-- A cipher that leaves its input in the clear, to run the model with. -/
def Gcm.plain : Gcm where
  cryptAndTag _ data := (List.replicate tagSize 0, data)
  authDecrypt _ _ data := some data
  length_tag _ _ := List.length_replicate
  length_data _ _ := rfl
  authDecrypt_cryptAndTag _ _ := rfl

end Zeno
