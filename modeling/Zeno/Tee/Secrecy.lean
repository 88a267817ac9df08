import Zeno.Kv.History
import Zeno.Tee.Like
import Zeno.Tee.Safety

/-!
# What a read reveals

The reply to a read should depend only on the fields the request names.  For numbers it
does.  `CMD_TEXT_GET` copies `STRING_LENGTH` bytes from the start of the text, with the
texts that lie behind it, and a text slot that was never written reads the first text
of its file.  `Request.Confined` says in which requests this cannot be seen, and
`reveals_named_iff` that there are no others: whenever it fails, there are two states
of the files with the same values under the RIDs of the request and different replies.
-/

namespace Zeno

open History KvMap

/-- What the handler writes into a request. -/
def readReply (e : Env) (g : Gcm) (tee : Tee) (req : Request) : Option Reply :=
  (handleOps e g tee req).map Prod.fst

/-- `CMD_INT_GET` to `CMD_TEXT_GET`, and the comparisons. -/
def Request.isRead : Request → Bool
  | .getNum _ _ | .getText _ | .cmp _ _ _ => true
  | _ => false

/-- The reply to a read is the same in all files in which the RIDs it names have the same
last value, or none. -/
def RevealsNamed (e : Env) (g : Gcm) (f : History) (req : Request) : Prop :=
  ∀ f' : History, f'.Reachable → (∀ x ∈ req.operands, f'.last x = f.last x) →
    ∀ tee tee' : Tee, tee.stores.kv = f.kv → tee'.stores.kv = f'.kv →
      readReply e g tee req = readReply e g tee' req

/-- A read of numbers; a read of a text that fills the block that is copied; a comparison of
texts that were written, or of two that were not in one partition; a match with a
pattern that was written, of a text that was written or with a pattern that cannot
tell texts apart.  A RID out of range is never read. -/
def Request.Confined (f : History) : Request → Prop
  | .getText key => ValidRid .text key →
      ∃ value, f.last (.text, key) = some value ∧ stringLength ≤ value.length + 1
  | .cmp .textCmp left right => ValidRid .text left → ValidRid .text right →
      (f.last (.text, left)).isSome ∧ (f.last (.text, right)).isSome ∨
        f.last (.text, left) = none ∧ f.last (.text, right) = none ∧
          ridPartition right = ridPartition left
  | .cmp .textLike text pattern => ValidRid .text text → ValidRid .text pattern →
      ∃ p, f.last (.text, pattern) = some p ∧
        ((f.last (.text, text)).isSome ∨ ConstantPattern p.bytes)
  | _ => True

variable {e : Env} {g : Gcm} {tee tee' : Tee} {f f' : History}

/-! ## The replies -/

theorem readReply_getNum {n : Num} {key : RID} (hg : islocal key = false) :
    readReply e g tee (.getNum n key) =
      (tee.stores.kv.get (.num n) key).map fun value => .value ⟨.num n, value⟩ := by
  simp only [readReply, handleOps, Stores.get_global hg, Option.bind_eq_bind, Option.map_eq_bind,
    Option.bind_assoc]
  rfl

theorem readReply_cmp {op : CmpOp} {left right : RID} (hl : islocal left = false)
    (hr : islocal right = false) :
    readReply e g tee (.cmp op left right) = (tee.stores.kv.get op.ty left).bind fun l =>
      (tee.stores.kv.get op.ty right).map fun r => .cmp (op.fn e l r) := by
  simp only [readReply, handleOps, handleCmp_eq, kvCmp, Stores.get_global hl,
    Stores.get_global hr, Option.bind_eq_bind, Option.map_eq_bind, Option.bind_assoc]
  rfl

theorem readReply_cmp_of_get {op : CmpOp} {left right : RID} {l r : op.ty.Val}
    (hl : islocal left = false) (hr : islocal right = false)
    (hleft : tee.stores.kv.get op.ty left = some l)
    (hright : tee.stores.kv.get op.ty right = some r) :
    readReply e g tee (.cmp op left right) = some (.cmp (op.fn e l r)) := by
  rw [readReply_cmp hl hr, hleft, hright]
  rfl

theorem readReply_getText {key : RID} (valid : ValidRid .text key) :
    readReply e g tee (.getText key) =
      if (tee.stores.kv.text (ridPartition key)).offsets (ridIndex key).toNat + stringLength ≤
          storeSize then
        some (.bytes ((tee.stores.kv.text (ridPartition key)).store.read
          ((tee.stores.kv.text (ridPartition key)).offsets (ridIndex key).toNat) stringLength))
      else none := by
  have hlocal : islocal key = false := by simpa [islocal] using valid.1
  have hlt : (ridIndex key).toNat < textMaxArrayEleNum := valid.2
  simp only [readReply, handleOps, Stores.textWindow, hlocal]
  rw [if_neg Bool.false_ne_true, if_pos ⟨valid.1, hlt⟩]
  split
  next => rfl
  next => rfl

/-- A request with a RID out of range has no reply. -/
theorem readReply_getText_invalid {key : RID} (hg : islocal key = false)
    (invalid : ¬ ValidRid .text key) : readReply e g tee (.getText key) = none := by
  have hnot : ¬ (ridPartition key ≠ ridLocalPartition ∧
      (ridIndex key).toNat < textMaxArrayEleNum) := invalid
  simp only [readReply, handleOps, Stores.textWindow, hg]
  rw [if_neg Bool.false_ne_true, if_neg hnot]
  rfl

theorem readReply_cmp_invalid {op : CmpOp} {left right : RID} (hl : islocal left = false)
    (hr : islocal right = false) (invalid : ¬ (ValidRid op.ty left ∧ ValidRid op.ty right)) :
    readReply e g tee (.cmp op left right) = none := by
  rw [readReply_cmp hl hr]
  by_cases hleft : ValidRid op.ty left
  · rw [KvMap.get_eq_none fun hright => invalid ⟨hleft, hright⟩]
    simp
  · rw [KvMap.get_eq_none hleft]
    rfl

/-! ## Confined requests -/

/-- A number reads the same. -/
theorem get_num_congr (inv : f.Inv) (inv' : f'.Inv) {n : Num} {key : RID}
    (h : f'.last (.num n, key) = f.last (.num n, key)) :
    f'.kv.get (.num n) key = f.kv.get (.num n) key := by
  by_cases valid : ValidRid (.num n) key
  · rw [inv.get_num valid, inv'.get_num valid, h]
  · rw [KvMap.get_eq_none valid, KvMap.get_eq_none valid]

/-- A text that was written reads the same. -/
theorem get_text_congr (inv : f.Inv) (inv' : f'.Inv) {key : RID}
    (hlast : (f.last (.text, key)).isSome) (h : f'.last (.text, key) = f.last (.text, key)) :
    f'.kv.get .text key = f.kv.get .text key := by
  obtain ⟨value, hvalue⟩ := Option.isSome_iff_exists.mp hlast
  have hstored := inv.stored .text key value hvalue
  have hstored' := inv'.stored .text key value (h.trans hvalue)
  rw [hstored.get, hstored'.get]

/-- A text that fills the block is all that is copied. -/
theorem readReply_getText_long {key : RID} {value : CStr} (h : tee.stores.kv.Stored .text key value)
    (long : stringLength ≤ value.length + 1) :
    readReply e g tee (.getText key) = some (.bytes (value.terminated.take stringLength)) := by
  have hholds := h.holds
  have hinside := hholds.inside
  have hbytes := hholds.bytes
  rw [← List.take_append_drop stringLength value.terminated, Mem.holds_append] at hbytes
  have hlen : (value.terminated.take stringLength).length = stringLength := by
    rw [List.length_take, CStr.length_terminated]
    omega
  have hread := Mem.read_of_holds hbytes.1
  rw [hlen] at hread
  rw [readReply_getText h.valid, if_pos (by omega), hread]

theorem strcmp_self (value : CStr) : strcmp value value = 0 := by
  simp [strcmp, threeWay, List.lt_irrefl]

/-- Two texts that were never written in one partition compare equal. -/
theorem readReply_textCmp_unwritten {left right : RID} (inv : f.Inv) (hkv : tee.stores.kv = f.kv)
    (validLeft : ValidRid .text left) (validRight : ValidRid .text right)
    (hl : islocal left = false) (hr : islocal right = false)
    (hleft : f.last (.text, left) = none) (hright : f.last (.text, right) = none)
    (part : ridPartition right = ridPartition left) :
    readReply e g tee (.cmp .textCmp left right) = some (.cmp 0) := by
  obtain ⟨value, hgetl, hgetr⟩ := inv.get_unwritten validLeft validRight hleft hright part.symm
  rw [← hkv] at hgetl hgetr
  rw [readReply_cmp_of_get hl hr hgetl hgetr]
  exact congrArg (fun c => some (Reply.cmp c)) (strcmp_self value)

/-- A pattern that cannot tell texts apart. -/
theorem readReply_textLike_constant {text pattern : RID} {p : CStr} (inv : f.Inv) (inv' : f'.Inv)
    (hkv : tee.stores.kv = f.kv) (hkv' : tee'.stores.kv = f'.kv)
    (valid : ValidRid .text text) (ht : islocal text = false) (hp : islocal pattern = false)
    (hlast : f.last (.text, pattern) = some p)
    (hlast' : f'.last (.text, pattern) = some p) (small : p.length < 2 ^ 31)
    (constant : ConstantPattern p.bytes) :
    readReply e g tee (.cmp .textLike text pattern) =
      readReply e g tee' (.cmp .textLike text pattern) := by
  obtain ⟨t, hget⟩ := inv.get_text valid
  obtain ⟨t', hget'⟩ := inv'.get_text valid
  have hpattern := (inv.stored .text pattern p hlast).get
  have hpattern' := (inv'.stored .text pattern p hlast').get
  rw [← hkv] at hget hpattern
  rw [← hkv'] at hget' hpattern'
  rw [readReply_cmp_of_get ht hp hget hpattern, readReply_cmp_of_get ht hp hget' hpattern']
  have hmatch : matchText t p = matchText t' p := by
    rw [Bool.eq_iff_iff, matchText_iff, matchText_iff, likeBytes_of_lt small]
    exact constant.like_iff (likeBytes t) (likeBytes t')
  exact congrArg (fun b : Bool => some (Reply.cmp (if b then 1 else 0))) hmatch

theorem Request.Confined.cmp {op : CmpOp} {left right : RID}
    (confined : Request.Confined f (.cmp op left right)) (inv : f.Inv) (inv' : f'.Inv)
    (hl : islocal left = false) (hr : islocal right = false)
    (small : op.ty = .text → ∀ v : CStr, f.last (.text, right) = some v → v.length < 2 ^ 31)
    (hleft : f'.last (op.ty, left) = f.last (op.ty, left))
    (hright : f'.last (op.ty, right) = f.last (op.ty, right))
    (hkv : tee.stores.kv = f.kv) (hkv' : tee'.stores.kv = f'.kv) :
    readReply e g tee (.cmp op left right) = readReply e g tee' (.cmp op left right) := by
  by_cases valid : ValidRid op.ty left ∧ ValidRid op.ty right
  · -- the replies are the same if both operands read the same
    have hsame (h₁ : f'.kv.get op.ty left = f.kv.get op.ty left)
        (h₂ : f'.kv.get op.ty right = f.kv.get op.ty right) :
        readReply e g tee (.cmp op left right) = readReply e g tee' (.cmp op left right) := by
      rw [readReply_cmp hl hr, readReply_cmp hl hr, hkv, hkv', h₁, h₂]
    cases op with
    | textCmp =>
        rcases confined valid.1 valid.2 with ⟨h₁, h₂⟩ | ⟨h₁, h₂, hpart⟩
        · exact hsame (get_text_congr inv inv' h₁ hleft) (get_text_congr inv inv' h₂ hright)
        · rw [readReply_textCmp_unwritten inv hkv valid.1 valid.2 hl hr h₁ h₂ hpart,
            readReply_textCmp_unwritten inv' hkv' valid.1 valid.2 hl hr (hleft.trans h₁)
              (hright.trans h₂) hpart]
    | textLike =>
        obtain ⟨p, hp, htext | hconstant⟩ := confined valid.1 valid.2
        · have hpattern : (f.last (.text, right)).isSome := Option.isSome_of_eq_some hp
          exact hsame (get_text_congr inv inv' htext hleft)
            (get_text_congr inv inv' hpattern hright)
        · exact readReply_textLike_constant inv inv' hkv hkv' valid.1 hl hr hp (hright.trans hp)
            (small rfl p hp) hconstant
    | intCmp => exact hsame (get_num_congr inv inv' hleft) (get_num_congr inv inv' hright)
    | floatCmp => exact hsame (get_num_congr inv inv' hleft) (get_num_congr inv inv' hright)
    | timestampCmp => exact hsame (get_num_congr inv inv' hleft) (get_num_congr inv inv' hright)
  · rw [readReply_cmp_invalid hl hr valid, readReply_cmp_invalid hl hr valid]

/-- The reply to a confined read. -/
theorem Request.Confined.reveals {req : Request} (confined : req.Confined f) (reach : f.Reachable)
    (read : req.isRead = true) (global : ∀ x ∈ req.operands, islocal x.2 = false)
    (small : ∀ key (v : CStr), (Ty.text, key) ∈ req.operands → f.last (.text, key) = some v →
      v.length < 2 ^ 31) : RevealsNamed e g f req := by
  intro f' reach' agree tee tee' hkv hkv'
  have inv := reach.inv
  have inv' := reach'.inv
  cases req with
  | getNum n key =>
      have hg := global (.num n, key) List.mem_cons_self
      have hsame := get_num_congr inv inv' (agree (.num n, key) List.mem_cons_self)
      rw [readReply_getNum hg, readReply_getNum hg, hkv, hkv', hsame]
  | getText key =>
      have hg := global (.text, key) List.mem_cons_self
      by_cases valid : ValidRid .text key
      · obtain ⟨value, hlast, hlong⟩ := confined valid
        have hstored := inv.stored .text key value hlast
        have hstored' := inv'.stored .text key value
          ((agree (.text, key) List.mem_cons_self).trans hlast)
        rw [← hkv] at hstored
        rw [← hkv'] at hstored'
        rw [readReply_getText_long hstored hlong, readReply_getText_long hstored' hlong]
      · rw [readReply_getText_invalid hg valid, readReply_getText_invalid hg valid]
  | cmp op left right =>
      have hleft : (op.ty, left) ∈ Request.operands (.cmp op left right) := List.mem_cons_self
      have hright : (op.ty, right) ∈ Request.operands (.cmp op left right) :=
        List.mem_cons_of_mem _ List.mem_cons_self
      have hsmall (h : op.ty = .text) (v : CStr) (hv : f.last (.text, right) = some v) :
          v.length < 2 ^ 31 := small right v (h ▸ hright) hv
      exact confined.cmp inv inv' (global (op.ty, left) hleft) (global (op.ty, right) hright)
        hsmall (agree (op.ty, left) hleft) (agree (op.ty, right) hright) hkv hkv'
  | _ => cases read

/-! ## The others -/

/-- A worker with empty local stores on some files. -/
def Tee.onFiles (kv : KvMap) : Tee := ⟨.zero, ⟨.empty, kv⟩⟩

/-- If a request reveals only what it names, any two files that agree on that reply the
same. -/
theorem RevealsNamed.agree {req : Request} {f₁ f₂ : History} (h : RevealsNamed e g f req)
    (reach₁ : f₁.Reachable) (reach₂ : f₂.Reachable)
    (agree₁ : ∀ x ∈ req.operands, f₁.last x = f.last x)
    (agree₂ : ∀ x ∈ req.operands, f₂.last x = f.last x) :
    readReply e g (.onFiles f₁.kv) req = readReply e g (.onFiles f₂.kv) req :=
  (h f₁ reach₁ agree₁ (.onFiles f.kv) _ rfl rfl).symm.trans
    (h f₂ reach₂ agree₂ (.onFiles f.kv) _ rfl rfl)

/-- Then the bytes behind the start of a file are the same, where a text starts there. -/
theorem RevealsNamed.bytes {key : RID} {f₁ f₂ : History} (h : RevealsNamed e g f (.getText key))
    (valid : ValidRid .text key) (reach₁ : f₁.Reachable) (reach₂ : f₂.Reachable)
    (last₁ : f₁.last (.text, key) = f.last (.text, key))
    (last₂ : f₂.last (.text, key) = f.last (.text, key))
    (off₁ : (f₁.kv.text (ridPartition key)).offsets (ridIndex key).toNat = 0)
    (off₂ : (f₂.kv.text (ridPartition key)).offsets (ridIndex key).toNat = 0)
    {i : Nat} (hi : i < stringLength) :
    (f₁.kv.text (ridPartition key)).store i = (f₂.kv.text (ridPartition key)).store i := by
  have hreply := h.agree reach₁ reach₂
    (by simpa [Request.operands] using last₁) (by simpa [Request.operands] using last₂)
  have hroom : 0 + stringLength ≤ storeSize := by decide
  rw [readReply_getText valid, readReply_getText valid] at hreply
  simp only [Tee.onFiles, off₁, off₂, if_pos hroom, Option.some.injEq, Reply.bytes.injEq] at hreply
  have hbyte := congrArg (fun bs : List UInt8 => bs[i]?) hreply
  simpa [Mem.read, hi] using hbyte

theorem two_pow_le_storeSize : 2 ^ 33 ≤ storeSize := by decide

/-- A text of one letter. -/
def oneLetter : CStr := ⟨[98], by decide⟩

/-- Whatever lies behind a short text, or at the start of the file if there is none, a block
that is copied contains it. -/
theorem exists_behind {key : RID} (valid : ValidRid .text key) (value : Option CStr)
    (short : ∀ v, value = some v → v.length + 1 < stringLength) (text : CStr)
    (htext : text.length ≤ 1) :
    ∃ f : History, f.Reachable ∧ f.last (.text, key) = value ∧
      (f.kv.text (ridPartition key)).offsets (ridIndex key).toNat = 0 ∧
      (f.kv.text (ridPartition key)).store (value.elim 0 fun v => v.length + 1) =
        text.terminated.headD 0 := by
  have hsize := two_pow_le_storeSize
  have hhead {kv : KvMap} {k : RID} (h : kv.Stored .text k text) :
      (kv.text (ridPartition k)).store ((kv.text (ridPartition k)).offsets (ridIndex k).toNat) =
        text.terminated.headD 0 := by
    have hfirst := h.holds.bytes 0 (by simp)
    rw [Nat.add_zero] at hfirst
    rw [hfirst, List.headD_eq_head?_getD, List.head?_eq_getElem?]
    simp
  obtain ⟨spare, hspare, hpart, hnot⟩ := exists_spare valid [key] (by simp)
  simp only [List.mem_cons, List.not_mem_nil, or_false] at hnot
  cases value with
  | none =>
      obtain ⟨spare₂, hspare₂, -, hnot₂⟩ := exists_spare valid [key, spare] (by simp)
      simp only [List.mem_cons, List.not_mem_nil, or_false, not_or] at hnot₂
      obtain ⟨f, two⟩ := exists_twoTexts text .empty hspare hspare₂ (Ne.symm hnot₂.2)
        (show text.length + 0 + 2 ≤ storeSize by omega)
      have hlast : f.last (.text, key) = none := by
        rw [two.last, Function.update_of_ne (by simpa using Ne.symm hnot₂.1),
          Function.update_of_ne (by simpa using Ne.symm hnot)]
        rfl
      have hoffset := two.reach.inv.offset key hlast
      have hbyte := hhead (two.first key valid hpart.symm (Ne.symm hnot₂.1))
      rw [hoffset] at hbyte
      exact ⟨f, two.reach, hlast, hoffset, hbyte⟩
  | some v =>
      have hshort : v.length + 1 < 540 := short v rfl
      obtain ⟨f, two⟩ := exists_twoTexts v text valid hspare (Ne.symm hnot) (by omega)
      refine ⟨f, two.reach, ?_, two.start, ?_⟩
      · rw [two.last, Function.update_of_ne (by simpa using Ne.symm hnot), Function.update_self]
      · have hbyte := hhead two.second
        rw [two.behind hpart, hpart] at hbyte
        exact hbyte

theorem getText_confined {key : RID} (h : RevealsNamed e g f (.getText key))
    (valid : ValidRid .text key) :
    ∃ value, f.last (.text, key) = some value ∧ stringLength ≤ value.length + 1 := by
  by_contra hnot
  have hshort (v : CStr) (hv : f.last (.text, key) = some v) : v.length + 1 < stringLength := by
    by_contra hlong
    exact hnot ⟨v, hv, Nat.le_of_not_lt hlong⟩
  obtain ⟨f₁, reach₁, last₁, off₁, byte₁⟩ := exists_behind valid _ hshort .empty (Nat.zero_le _)
  obtain ⟨f₂, reach₂, last₂, off₂, byte₂⟩ := exists_behind valid _ hshort oneLetter (Nat.le_refl _)
  have hpos : (f.last (.text, key)).elim 0 (fun v : CStr => v.length + 1) < stringLength := by
    cases hlast : f.last (.text, key) with
    | none => exact (by decide : 0 < stringLength)
    | some v => exact hshort v hlast
  have hsame := h.bytes valid reach₁ reach₂ last₁ last₂ off₁ off₂ hpos
  rw [byte₁, byte₂] at hsame
  exact absurd hsame (by decide)

/-- Files with the same history under two RIDs, which read two texts there. -/
def CanRead (f : History) (left right : RID) (l r : CStr) : Prop :=
  ∃ f' : History, f'.Reachable ∧ f'.last (.text, left) = f.last (.text, left) ∧
    f'.last (.text, right) = f.last (.text, right) ∧
    f'.kv.get .text left = some l ∧ f'.kv.get .text right = some r

theorem CanRead.symm {left right : RID} {l r : CStr} (h : CanRead f left right l r) :
    CanRead f right left r l := by
  obtain ⟨f', reach, hleft, hright, hl, hr⟩ := h
  exact ⟨f', reach, hright, hleft, hr, hl⟩

/-- Beside a written text, an unwritten one can be any. -/
theorem canRead_unwritten {left right : RID} {value : CStr} (text : CStr)
    (validLeft : ValidRid .text left) (validRight : ValidRid .text right)
    (hleft : f.last (.text, left) = some value) (hright : f.last (.text, right) = none)
    (room : text.length + value.length + 2 ≤ storeSize) : CanRead f left right value text := by
  have hne : right ≠ left := by
    rintro rfl
    rw [hleft] at hright
    cases hright
  obtain ⟨f', reach, right', left', getr, getl⟩ :=
    exists_unwritten text value validRight validLeft hne room
  exact ⟨f', reach, left'.trans hleft.symm, right'.trans hright.symm, getl, getr⟩

/-- Two unwritten texts can be any, the same in one partition. -/
theorem canRead_bothUnwritten {left right : RID} (l r : CStr)
    (validLeft : ValidRid .text left) (validRight : ValidRid .text right)
    (hleft : f.last (.text, left) = none) (hright : f.last (.text, right) = none)
    (apart : ridPartition right = ridPartition left → l = r)
    (room : l.length + r.length + 2 ≤ storeSize) : CanRead f left right l r := by
  obtain ⟨f', reach, left', right', getl, getr⟩ :=
    exists_bothUnwritten l r validLeft validRight apart room
  exact ⟨f', reach, left'.trans hleft.symm, right'.trans hright.symm, getl, getr⟩

/-- If a comparison reveals only what it names, its outcome is the same for all texts that its
operands can read. -/
theorem RevealsNamed.textCmp {left right : RID} {l₁ r₁ l₂ r₂ : CStr}
    (h : RevealsNamed e g f (.cmp .textCmp left right)) (hl : islocal left = false)
    (hr : islocal right = false) (h₁ : CanRead f left right l₁ r₁)
    (h₂ : CanRead f left right l₂ r₂) : strcmp l₁ r₁ = strcmp l₂ r₂ := by
  obtain ⟨f₁, reach₁, left₁, right₁, getl₁, getr₁⟩ := h₁
  obtain ⟨f₂, reach₂, left₂, right₂, getl₂, getr₂⟩ := h₂
  have hreply := h.agree reach₁ reach₂
    (by simpa [Request.operands, CmpOp.ty] using ⟨left₁, right₁⟩)
    (by simpa [Request.operands, CmpOp.ty] using ⟨left₂, right₂⟩)
  rw [readReply_cmp_of_get hl hr getl₁ getr₁, readReply_cmp_of_get hl hr getl₂ getr₂] at hreply
  injection Option.some.inj hreply

theorem RevealsNamed.textLike {text pattern : RID} {t₁ p₁ t₂ p₂ : CStr}
    (h : RevealsNamed e g f (.cmp .textLike text pattern)) (ht : islocal text = false)
    (hp : islocal pattern = false) (h₁ : CanRead f text pattern t₁ p₁)
    (h₂ : CanRead f text pattern t₂ p₂) (like : matchText t₁ p₁ = true) :
    matchText t₂ p₂ = true := by
  obtain ⟨f₁, reach₁, text₁, pattern₁, gett₁, getp₁⟩ := h₁
  obtain ⟨f₂, reach₂, text₂, pattern₂, gett₂, getp₂⟩ := h₂
  have hreply := h.agree reach₁ reach₂
    (by simpa [Request.operands, CmpOp.ty] using ⟨text₁, pattern₁⟩)
    (by simpa [Request.operands, CmpOp.ty] using ⟨text₂, pattern₂⟩)
  rw [readReply_cmp_of_get ht hp gett₁ getp₁, readReply_cmp_of_get ht hp gett₂ getp₂] at hreply
  have hcmp : (if matchText t₁ p₁ then 1 else 0 : Int) = if matchText t₂ p₂ then 1 else 0 := by
    injection Option.some.inj hreply
  rw [if_pos like] at hcmp
  by_contra hnot
  rw [if_neg hnot] at hcmp
  cases hcmp

/-- Every text differs from some other. -/
theorem exists_strcmp_ne (value : CStr) :
    ∃ text : CStr, text.length ≤ 1 ∧ strcmp value text ≠ 0 ∧ strcmp text value ≠ 0 := by
  obtain ⟨bytes, nul⟩ := value
  cases bytes with
  | nil =>
      have hne : strcmp .empty oneLetter ≠ 0 ∧ strcmp oneLetter .empty ≠ 0 := by decide
      exact ⟨oneLetter, Nat.le_refl _, hne⟩
  | cons b bytes =>
      refine ⟨.empty, Nat.zero_le _, ?_, ?_⟩ <;> simp [strcmp, threeWay, CStr.empty]

theorem textCmp_confined {left right : RID} (h : RevealsNamed e g f (.cmp .textCmp left right))
    (validLeft : ValidRid .text left) (validRight : ValidRid .text right)
    (hl : islocal left = false) (hr : islocal right = false)
    (smallLeft : ∀ v : CStr, f.last (.text, left) = some v → v.length < 2 ^ 31)
    (smallRight : ∀ v : CStr, f.last (.text, right) = some v → v.length < 2 ^ 31) :
    (f.last (.text, left)).isSome ∧ (f.last (.text, right)).isSome ∨
      f.last (.text, left) = none ∧ f.last (.text, right) = none ∧
        ridPartition right = ridPartition left := by
  have hsize := two_pow_le_storeSize
  cases hleft : f.last (.text, left) with
  | none =>
      cases hright : f.last (.text, right) with
      | none =>
          refine .inr ⟨rfl, rfl, ?_⟩
          by_contra hpart
          -- the first texts of two partitions are compared
          have hempty := canRead_bothUnwritten .empty .empty validLeft validRight hleft hright
            (fun _ => rfl) (by decide)
          have hletter := canRead_bothUnwritten oneLetter .empty validLeft validRight hleft hright
            (fun he => absurd he hpart) (by decide)
          exact absurd (h.textCmp hl hr hempty hletter) (by decide)
      | some v =>
          have hsmall := smallRight v hright
          obtain ⟨text, hlen, -, hdiffers⟩ := exists_strcmp_ne v
          have hequal := canRead_unwritten v validRight validLeft hright hleft (by omega)
          have hother := canRead_unwritten text validRight validLeft hright hleft (by omega)
          have hcmp := h.textCmp hl hr hequal.symm hother.symm
          rw [strcmp_self] at hcmp
          exact absurd hcmp.symm hdiffers
  | some v =>
      cases hright : f.last (.text, right) with
      | none =>
          have hsmall := smallLeft v hleft
          obtain ⟨text, hlen, hdiffers, -⟩ := exists_strcmp_ne v
          have hequal := canRead_unwritten v validLeft validRight hleft hright (by omega)
          have hother := canRead_unwritten text validLeft validRight hleft hright (by omega)
          have hcmp := h.textCmp hl hr hequal hother
          rw [strcmp_self] at hcmp
          exact absurd hcmp.symm hdiffers
      | some w => exact .inl ⟨rfl, rfl⟩

/-- No text matches all patterns. -/
theorem exists_not_like (value : CStr) :
    ∃ p : CStr, p.length ≤ 1 ∧ ¬ Like value.bytes p.bytes := by
  obtain ⟨bytes, nul⟩ := value
  cases bytes with
  | nil =>
      refine ⟨oneLetter, Nat.le_refl _, ?_⟩
      rw [like_empty_iff]
      decide
  | cons b bytes =>
      refine ⟨.empty, Nat.zero_le _, ?_⟩
      exact fun hlike => List.cons_ne_nil b bytes (like_nil_iff.mp hlike)

theorem textLike_confined {text pattern : RID}
    (h : RevealsNamed e g f (.cmp .textLike text pattern))
    (validText : ValidRid .text text) (validPattern : ValidRid .text pattern)
    (ht : islocal text = false) (hp : islocal pattern = false)
    (smallText : ∀ v : CStr, f.last (.text, text) = some v → v.length < 2 ^ 31)
    (smallPattern : ∀ v : CStr, f.last (.text, pattern) = some v → v.length < 2 ^ 31) :
    ∃ p : CStr, f.last (.text, pattern) = some p ∧
      ((f.last (.text, text)).isSome ∨ ConstantPattern p.bytes) := by
  have hsize := two_pow_le_storeSize
  cases hpattern : f.last (.text, pattern) with
  | none =>
      exfalso
      cases htext : f.last (.text, text) with
      | none =>
          -- the empty text matches itself, a single backslash does not
          have hempty := canRead_bothUnwritten .empty .empty validText validPattern htext hpattern
            (fun _ => rfl) (by decide)
          have hslash := canRead_bothUnwritten ⟨[92], by decide⟩ ⟨[92], by decide⟩ validText
            validPattern htext hpattern (fun _ => rfl) (by decide)
          exact absurd (h.textLike ht hp hempty hslash (by decide)) (by decide)
      | some v =>
          have hsmall := smallText v htext
          obtain ⟨p, hlen, hnot⟩ := exists_not_like v
          have hall := canRead_unwritten ⟨[37], by decide⟩ validText validPattern htext hpattern
            (show 1 + v.length + 2 ≤ storeSize by omega)
          have hother := canRead_unwritten p validText validPattern htext hpattern (by omega)
          have hlike : Like v.bytes [37] := like_of_percents (List.cons_ne_nil _ _) (by simp) _
          have hmatch := h.textLike ht hp hall hother
            ((matchText_iff_of_lt (p := ⟨[37], by decide⟩) hsmall (by decide)).mpr hlike)
          exact hnot ((matchText_iff_of_lt hsmall (by omega)).mp hmatch)
  | some p =>
      refine ⟨p, rfl, ?_⟩
      cases htext : f.last (.text, text) with
      | none =>
          refine .inr ?_
          by_contra hconstant
          have hsmall := smallPattern p hpattern
          have hplen : p.bytes.length = p.length := rfl
          obtain ⟨⟨t, hlen, hnul, hlike⟩, t', hlen', hnul', hnot⟩ :=
            exists_like_of_not_constant hconstant p.nulFree
          have hmatching := canRead_unwritten ⟨t, hnul⟩ validPattern validText hpattern htext
            (show t.length + p.length + 2 ≤ storeSize by omega)
          have hother := canRead_unwritten ⟨t', hnul'⟩ validPattern validText hpattern htext
            (show t'.length + p.length + 2 ≤ storeSize by omega)
          have hmatch := h.textLike ht hp hmatching.symm hother.symm
            ((matchText_iff_of_lt (t := ⟨t, hnul⟩) (by omega : t.length < 2 ^ 31) hsmall).mpr hlike)
          exact hnot ((matchText_iff_of_lt (t := ⟨t', hnul'⟩)
            (by omega : t'.length < 2 ^ 31) hsmall).mp hmatch)
      | some v => exact .inl rfl

/-! ## The equivalence -/

/-- A read reveals only the fields it names exactly if it is confined, in every state of the
files that puts and replaces reach.  The texts it names are shorter than `2 ^ 31`: their
lengths are `int`s. -/
theorem reveals_named_iff (reach : f.Reachable) {req : Request} (read : req.isRead = true)
    (global : ∀ x ∈ req.operands, islocal x.2 = false)
    (small : ∀ key (v : CStr), (Ty.text, key) ∈ req.operands → f.last (.text, key) = some v →
      v.length < 2 ^ 31) : RevealsNamed e g f req ↔ req.Confined f := by
  refine ⟨fun h => ?_, fun confined => confined.reveals reach read global small⟩
  cases req with
  | getNum n key => trivial
  | getText key => exact getText_confined h
  | cmp op left right =>
      have hl := global (op.ty, left) List.mem_cons_self
      have hr := global (op.ty, right) (List.mem_cons_of_mem _ List.mem_cons_self)
      cases op with
      | textCmp =>
          intro validLeft validRight
          exact textCmp_confined h validLeft validRight hl hr
            (fun v => small left v List.mem_cons_self)
            (fun v => small right v (List.mem_cons_of_mem _ List.mem_cons_self))
      | textLike =>
          intro validText validPattern
          exact textLike_confined h validText validPattern hl hr
            (fun v => small left v List.mem_cons_self)
            (fun v => small right v (List.mem_cons_of_mem _ List.mem_cons_self))
      | _ => trivial
  | _ => cases read

/-- A text that fills the block with its NUL. -/
def blockValue : CStr := ⟨List.replicate 539 98, fun h => nomatch List.eq_of_mem_replicate h⟩

/-- The files after it was put. -/
def blockText : History :=
  (fresh.step (.put ⟨.text, blockValue⟩ .default)).get (by decide +kernel)

theorem reveals_named_iff_block : RevealsNamed .trivial .plain blockText (.getText 0) := by
  have hreach : blockText.Reachable := .single ⟨_, trivial, (Option.some_get _).symm⟩
  have hlast : blockText.last (.text, 0) = some blockValue := by decide +kernel
  have hlen : blockValue.length = 539 := List.length_replicate
  refine (reveals_named_iff hreach rfl ?_ ?_).mpr ?_
  · intro x hx
    obtain rfl : x = (Ty.text, 0) := by simpa [Request.operands] using hx
    decide
  · intro key v hkey hv
    obtain rfl : key = 0 := by simpa [Request.operands] using hkey
    obtain rfl : blockValue = v := Option.some.inj (hlast.symm.trans hv)
    rw [hlen]
    decide
  · intro _
    refine ⟨blockValue, hlast, ?_⟩
    rw [hlen]
    decide

/-- The files after a text, and after a second one. -/
def beforeSecret : History :=
  (fresh.step (.put ⟨.text, oneLetter⟩ .default)).get (by decide +kernel)

def afterSecret : History :=
  (beforeSecret.step (.put ⟨.text, ⟨[115, 51], by decide⟩⟩ .default)).get (by decide +kernel)

/-- The first text is the same in both, and `CMD_TEXT_GET` of it replies with the second. -/
theorem text_get_reveals_neighbour :
    beforeSecret.Reachable ∧ afterSecret.Reachable ∧
      beforeSecret.last (.text, 0) = some oneLetter ∧
      afterSecret.last (.text, 0) = some oneLetter ∧
      readReply .trivial .plain (.onFiles beforeSecret.kv) (.getText 0) =
        some (.bytes ([98, 0] ++ List.replicate 538 0)) ∧
      readReply .trivial .plain (.onFiles afterSecret.kv) (.getText 0) =
        some (.bytes ([98, 0, 115, 51] ++ List.replicate 536 0)) := by
  have hbefore : beforeSecret.Reachable := .single ⟨_, trivial, (Option.some_get _).symm⟩
  exact ⟨hbefore, hbefore.tail ⟨_, trivial, (Option.some_get _).symm⟩, by decide +kernel,
    by decide +kernel, by decide +kernel, by decide +kernel⟩

end Zeno
