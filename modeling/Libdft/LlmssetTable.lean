import Libdft.Llmsset

/-! What the unique table keeps, whoever writes to it: every entry names a marked data bucket of
its own, has the hash of the content there, and was put where the probe sequence of the content
first had room. -/
namespace Libdft.Llmsset

/-! Bits of the bitmaps and parts of an entry. -/

theorem bit_eq_twoPow {j : Nat} (small : j < 64) : bit j = BitVec.twoPow 64 (63 - j) := by
  have all : ∀ j : Fin 64, bit j = BitVec.twoPow 64 (63 - j) := by decide
  exact all ⟨j,small⟩

theorem and_bit_ne_zero {v : Word} {j : Nat} (small : j < 64) : v &&& bit j ≠ 0 ↔ v.getMsbD j = true := by
  rw [bit_eq_twoPow small,BitVec.and_twoPow,BitVec.getMsbD_eq_getLsbD]
  have inside : 63 - j < 64 := by omega
  have single : BitVec.twoPow 64 (63 - j) ≠ 0 := by
    intro zero
    have here := congrArg (BitVec.getLsbD · (63 - j)) zero
    simp [inside] at here
  have place : 64 - 1 - j = 63 - j := by omega
  rw [place]
  split
  next set => exact iff_of_true single (by simp [set,small])
  next clear => simp [clear]

theorem bit_getMsbD {i j : Nat} (small : i < 64) (small' : j < 64) : (bit j).getMsbD i = decide (i = j) := by
  have all : ∀ i j : Fin 64, (bit j).getMsbD i = decide (i = j) := by decide +kernel
  have here := all ⟨i,small⟩ ⟨j,small'⟩
  simpa using here

theorem isMarked_eq (bitmap : Nat → Word) (c : Nat) : isMarked bitmap c = (bitmap (c / 64)).getMsbD (c % 64) := by
  have iff := and_bit_ne_zero (v := bitmap (c / 64)) (Nat.mod_lt c (by decide : 0 < 64))
  rw [isMarked,Bool.eq_iff_iff,decide_eq_true_iff]
  exact iff

theorem isMarked_or {bitmap : Nat → Word} {w j : Nat} (small : j < 64) (c : Nat) :
    isMarked (Function.update bitmap w (bitmap w ||| bit j)) c = (isMarked bitmap c || decide (c = 64 * w + j)) := by
  have low := Nat.mod_lt c (by decide : 0 < 64)
  rw [isMarked_eq,isMarked_eq]
  by_cases here : c / 64 = w
  · subst here
    rw [Function.update_self,BitVec.getMsbD_or,bit_getMsbD low small]
    have same : c % 64 = j ↔ c = 64 * (c / 64) + j := by omega
    exact congrArg _ (decide_eq_decide.mpr same)
  · have other : c ≠ 64 * w + j := by omega
    rw [Function.update_of_ne here]
    simp [other]

theorem isMarked_clear {bitmap : Nat → Word} {w j : Nat} (small : j < 64) (c : Nat) :
    isMarked (Function.update bitmap w (bitmap w &&& ~~~bit j)) c = (isMarked bitmap c && !decide (c = 64 * w + j)) := by
  have low := Nat.mod_lt c (by decide : 0 < 64)
  rw [isMarked_eq,isMarked_eq]
  by_cases here : c / 64 = w
  · subst here
    rw [Function.update_self,BitVec.getMsbD_and,BitVec.getMsbD_not,bit_getMsbD low small]
    have same : c % 64 = j ↔ c = 64 * (c / 64) + j := by omega
    simp [low,← same]
  · have other : c ≠ 64 * w + j := by omega
    rw [Function.update_of_ne here]
    simp [other]

/-- The first bit of a word that is not set. -/
theorem clz_free {v : Word} (room : v ≠ BitVec.allOnes 64) : (~~~v).clz.toNat < 64 ∧ v.getMsbD (~~~v).clz.toNat = false := by
  have some : ~~~v ≠ 0#64 := by
    intro none
    apply room
    rw [← BitVec.not_not (b := v),none]
    rfl
  have small : (~~~v).clz.toNat < 64 := by
    simpa [BitVec.lt_def] using BitVec.clz_lt_iff_ne_zero.mpr some
  refine ⟨small,?_⟩
  have set := BitVec.getLsbD_true_clz_of_ne_zero (by decide) some
  have inside : 64 - 1 - (~~~v).clz.toNat < 64 := by omega
  rw [BitVec.getLsbD_not] at set
  rw [BitVec.getMsbD_eq_getLsbD]
  simpa [small,inside] using set

/-- An entry for a data bucket. -/
def entry (p : Params) (k : Key) (c : Nat) : Word := p.hash k ||| BitVec.ofNat 64 c

section Entry
variable {p : Params} {k : Key} {c : Nat}

theorem ofNat_and_maskIndex (small : c < 2 ^ 40) : BitVec.ofNat 64 c &&& maskIndex = BitVec.ofNat 64 c := by
  apply BitVec.eq_of_toNat_eq
  have low := Nat.and_two_pow_sub_one_eq_mod c 40
  have big : c < 2 ^ 64 := by omega
  rw [BitVec.toNat_and,BitVec.toNat_ofNat,Nat.mod_eq_of_lt big]
  show c &&& 2 ^ 40 - 1 = c
  rw [low,Nat.mod_eq_of_lt small]

theorem entry_and_maskIndex (small : c < 2 ^ 40) : entry p k c &&& maskIndex = BitVec.ofNat 64 c := by
  have apart : maskHash &&& maskIndex = 0 := by decide
  rw [entry,Params.hash,BitVec.and_or_distrib_right,BitVec.and_assoc,apart,ofNat_and_maskIndex small]
  simp

theorem indexOf_entry (small : c < 2 ^ 40) : indexOf (entry p k c) = c := by
  have big : c < 2 ^ 64 := by omega
  rw [indexOf,entry_and_maskIndex small,BitVec.toNat_ofNat,Nat.mod_eq_of_lt big]

theorem entry_and_maskHash (small : c < 2 ^ 40) : entry p k c &&& maskHash = p.hash k := by
  have apart : maskIndex &&& maskHash = 0 := by decide
  have none : BitVec.ofNat 64 c &&& maskHash = 0 := by
    rw [← ofNat_and_maskIndex small,BitVec.and_assoc,apart]
    simp
  rw [entry,BitVec.and_or_distrib_right,none,Params.hash,BitVec.and_assoc,BitVec.and_self]
  simp

theorem entry_ne_zero (small : c < 2 ^ 40) (some : c ≠ 0) : entry p k c ≠ 0 := by
  intro zero
  have index := indexOf_entry (p := p) (k := k) small
  rw [zero] at index
  exact some (by simpa [indexOf] using index.symm)

end Entry

theorem Params.tableSize_le (p : Params) : p.tableSize ≤ 2 ^ 40 := Nat.pow_le_pow_right (by decide) p.index_le

/-- The content found at a slot. -/
def Dbs.slots (d : Dbs) (q : Nat) : Option Key := if d.table q = 0 then none else some (d.data (indexOf (d.table q)))

/-- A data bucket that an entry names. -/
def Dbs.Published (d : Dbs) (c : Nat) : Prop := ∃ q, d.table q ≠ 0 ∧ indexOf (d.table q) = c

structure TableOk (p : Params) (d : Dbs) : Prop where
  inside : ∀ c, d.Published c → 2 ≤ c ∧ c < p.tableSize ∧ isMarked d.bitmap2 c = true
  hashed : ∀ q, d.table q ≠ 0 → d.table q &&& maskHash = p.hash (d.data (indexOf (d.table q)))
  distinct : ∀ q q', d.table q ≠ 0 → d.table q' ≠ 0 → indexOf (d.table q) = indexOf (d.table q') → q = q'
  consistent : p.probing.Consistent d.slots
  reserved : isMarked d.bitmap2 0 = true ∧ isMarked d.bitmap2 1 = true

section Slots
variable {p : Params} {d : Dbs} {q c : Nat} {k : Key}

theorem slots_filled (filled : d.table q ≠ 0) : d.slots q = some (d.data (indexOf (d.table q))) := if_neg filled

theorem slots_empty : d.slots q = none ↔ d.table q = 0 := by
  unfold Dbs.slots
  split
  next empty => simp [empty]
  next filled => exact iff_of_false nofun filled

/-- A content is published under one index. -/
theorem TableOk.same_key (ok : TableOk p d) (first : d.Published c) (second : d.Published c') (same : d.data c = d.data c') :
    c = c' := by
  obtain ⟨q,filled,rfl⟩ := first
  obtain ⟨q',filled',rfl⟩ := second
  have here := slots_filled filled
  rw [same,← slots_filled filled'] at here
  rw [slots_filled filled'] at here
  obtain rfl := ok.consistent.unique here (slots_filled filled')
  rfl

/-! The ways in which the table changes. -/

/-- Data are written to a bucket that no entry names. -/
theorem slots_data (unpublished : ¬ d.Published c) (x : Key) :
    Dbs.slots { d with data := Function.update d.data c x } = d.slots := by
  funext q
  unfold Dbs.slots
  split
  next => rfl
  next filled =>
    have other : indexOf (d.table q) ≠ c := fun same => unpublished ⟨q,filled,same⟩
    exact congrArg some (Function.update_of_ne other _ _)

theorem TableOk.data (ok : TableOk p d) (unpublished : ¬ d.Published c) (x : Key) :
    TableOk p { d with data := Function.update d.data c x } where
  inside := ok.inside
  hashed q filled := by
    have other : indexOf (d.table q) ≠ c := fun same => unpublished ⟨q,filled,same⟩
    exact (ok.hashed q filled).trans (congrArg p.hash (Function.update_of_ne other _ _).symm)
  distinct := ok.distinct
  consistent := by
    rw [slots_data unpublished]
    exact ok.consistent
  reserved := ok.reserved

/-- No mark of an entry goes away. -/
theorem TableOk.marks (ok : TableOk p d) (bitmap : Nat → Word)
    (kept : ∀ c, d.Published c ∨ c < 2 → isMarked d.bitmap2 c = true → isMarked bitmap c = true) :
    TableOk p { d with bitmap2 := bitmap } where
  inside c published :=
    have ⟨large,small,marked⟩ := ok.inside c published
    ⟨large,small,kept c (.inl published) marked⟩
  hashed := ok.hashed
  distinct := ok.distinct
  consistent := ok.consistent
  reserved := ⟨kept 0 (.inr (by decide)) ok.reserved.1,kept 1 (.inr (by decide)) ok.reserved.2⟩

theorem TableOk.owners (ok : TableOk p d) (bitmap : Nat → Word) : TableOk p { d with bitmap1 := bitmap } :=
  ⟨ok.inside,ok.hashed,ok.distinct,ok.consistent,ok.reserved⟩

/-- The entry of a data bucket, where there was none. -/
def Dbs.publish (p : Params) (d : Dbs) (q : Nat) (k : Key) (c : Nat) : Dbs :=
  { d with table := Function.update d.table q (entry p k c) }

section Publish
variable (empty : d.table q = 0) (some : c ≠ 0) (small : c < 2 ^ 40)

theorem publish_self : (d.publish p q k c).table q = entry p k c := Function.update_self ..

theorem publish_other {q' : Nat} (other : q' ≠ q) : (d.publish p q k c).table q' = d.table q' :=
  Function.update_of_ne other ..

include some small

theorem slots_publish : (d.publish p q k c).slots = Function.update d.slots q (Option.some (d.data c)) := by
  funext q'
  by_cases here : q' = q
  · subst here
    rw [Function.update_self,slots_filled (publish_self ▸ entry_ne_zero small some),publish_self,indexOf_entry small]
    rfl
  · rw [Function.update_of_ne here,Dbs.slots,publish_other here]
    rfl

include empty

theorem published_publish {c' : Nat} : (d.publish p q k c).Published c' ↔ d.Published c' ∨ c' = c := by
  constructor
  · rintro ⟨q',filled,rfl⟩
    by_cases here : q' = q
    · subst here
      rw [publish_self,indexOf_entry small]
      exact .inr rfl
    · rw [publish_other here] at filled ⊢
      exact .inl ⟨q',filled,rfl⟩
  · rintro (⟨q',filled,rfl⟩ | rfl)
    · have other : q' ≠ q := by
        rintro rfl
        exact filled empty
      exact ⟨q',by rwa [publish_other other],by rw [publish_other other]⟩
    · exact ⟨q,publish_self ▸ entry_ne_zero small some,by rw [publish_self,indexOf_entry small]⟩

theorem TableOk.publish (ok : TableOk p d) (unpublished : ¬ d.Published c) (content : d.data c = k) (large : 2 ≤ c)
    (inside : c < p.tableSize) (marked : isMarked d.bitmap2 c = true) (place : p.probing.position k n = q)
    (passed : p.probing.Passed d.slots k n) : TableOk p (d.publish p q k c) where
  inside c' published := by
    rcases (published_publish empty some small).mp published with before | rfl
    · exact ok.inside c' before
    · exact ⟨large,inside,marked⟩
  hashed q' filled := by
    by_cases here : q' = q
    · subst here
      rw [publish_self,entry_and_maskHash small,indexOf_entry small]
      exact congrArg p.hash content.symm
    · rw [publish_other here] at filled ⊢
      exact ok.hashed q' filled
  distinct q₁ q₂ filled₁ filled₂ same := by
    have fresh {q' : Nat} (other : q' ≠ q) (filled : d.table q' ≠ 0) : indexOf (d.table q') ≠ c :=
      fun index => unpublished ⟨q',filled,index⟩
    by_cases here₁ : q₁ = q <;> by_cases here₂ : q₂ = q
    · rw [here₁,here₂]
    · subst here₁
      rw [publish_self,indexOf_entry small,publish_other here₂] at same
      rw [publish_other here₂] at filled₂
      exact absurd same.symm (fresh here₂ filled₂)
    · subst here₂
      rw [publish_self,indexOf_entry small,publish_other here₁] at same
      rw [publish_other here₁] at filled₁
      exact absurd same (fresh here₁ filled₁)
    · rw [publish_other here₁] at filled₁ same
      rw [publish_other here₂] at filled₂ same
      exact ok.distinct q₁ q₂ filled₁ filled₂ same
  consistent := by
    rw [slots_publish some small,content,← place]
    exact ok.consistent.fill passed (by rw [place]; exact slots_empty.mpr empty)
  reserved := ok.reserved

end Publish
end Slots
end Libdft.Llmsset
