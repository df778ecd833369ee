import Libdft.Moves

/-! Reads of the shadow memory at any address. The writers leave out the addresses above the
last one that has a tag; the reader has a null pointer for them, and goes through it. -/
namespace Libdft.ShadowReads

open TagMap TagTraits Libdft.Core

section Reads
variable {T : Type} [TagTraits T]

/-- Whatever is written to the address, the shadow memory stays as it was. -/
def Ignored (T : Type) [TagTraits T] (a : Nat) : Prop :=
  ∀ (dir : TagDir T) (tag : T), tagmapSetb dir a tag = dir

/-- A read has a tag to return, and it is the cleared one where writes are ignored. -/
structure Defined (dir : TagDir T) (a : Nat) : Prop where
  pointer : tagDirGetbAsPtr dir a ≠ none
  blank : Ignored T a → tagmapGetb dir a = some clearedVal

/-- Where an address has a tag, writes are ignored only if there is no tag but the cleared one. -/
theorem Ignored.only (ignored : Ignored T a) (user : a ≤ maxAddr) (tag : T) : tag = clearedVal := by
  have written := tagmapSetb_puts (empty : TagDir T) a tag a
  rw [ignored,getb_empty user,if_pos ⟨rfl,user⟩] at written
  exact (Option.some.inj written).symm

theorem defined_iff (dir : TagDir T) (a : Nat) : Defined dir a ↔ a ≤ maxAddr := by
  constructor
  · intro defined
    by_contra above
    exact defined.pointer (getb_beyond dir (Nat.lt_of_not_le above))
  · intro user
    have read := getb_user dir user
    refine ⟨fun null => ?_,fun ignored => ?_⟩
    · exact Option.some_ne_none _ (read.symm.trans null)
    · rw [read,ignored.only user (shadow dir a user)]

theorem getb_isSome_iff (dir : TagDir T) (a : Nat) : (tagmapGetb dir a).isSome ↔ a ≤ maxAddr := by
  by_cases user : a ≤ maxAddr
  · simp [getb_user dir user,user]
  · simp [getb_beyond dir (Nat.lt_of_not_le user),user]

/-- A range query comes to its end exactly where every byte of the range, with sums that wrap,
has a tag. -/
theorem getn_isSome_iff {σ : Type} (tagCombine : T → T → σ → T × σ) (dir : TagDir T) (addr n : Nat) (keeps : σ) :
    (tagmapGetn tagCombine dir addr n keeps).isSome ↔ ∀ i < n % 2 ^ 32, (addr + i) % 2 ^ 64 ≤ maxAddr := by
  have goes (offsets : List Nat) (acc : T × σ) : (offsets.foldlM (fun acc i => do
      let t ← tagmapGetb dir ((addr + i) % 2 ^ 64)
      return if tagIsEmpty t then acc else tagCombine acc.1 t acc.2) acc).isSome ↔
        ∀ i ∈ offsets, (addr + i) % 2 ^ 64 ≤ maxAddr := by
    induction offsets generalizing acc with
    | nil => simp
    | cons i offsets ih =>
      rw [List.foldlM_cons,List.forall_mem_cons,← getb_isSome_iff dir]
      cases read : tagmapGetb dir ((addr + i) % 2 ^ 64) with
      | none => simp
      | some t => simpa using ih _
  have ended := goes (List.range (n % 2 ^ 32)) (clearedVal,keeps)
  simp only [List.mem_range] at ended
  exact ended

/-! The reads of an analysis routine, `tag_t tags[] = M*TAG(ea)`. -/

theorem mtags_look (s : TagState T) (ea : BitVec 64) (i : Nat) :
    s.look (mtags ea i) = tagmapGetb s.tagDir ((ea.toNat + i) % 2 ^ 64) := by
  simp [mtags,TagState.look]

theorem fetch_null {s : TagState T} {p : Place} (inside : p.Inside) (null : s.look p = none) :
    fetch p s = .error .nullTag := by
  simp [fetch,inside,null]

end Reads

section Routines
variable {T : Type} [TagOps T]

theorem fetchEach_null {s : TagState T} {src : Nat → Place} (inside : ∀ k < n, (src k).Inside)
    (small : k < n) (null : s.look (src k) = none) : fetchEach n src s = .error .nullTag := by
  have stops (places : List Nat) (below : ∀ j ∈ places, j < n) (member : k ∈ places) :
      (places.mapM fun j => (fetch (src j) : Analysis T T)) s = .error .nullTag := by
    induction places with
    | nil => simp at member
    | cons j places ih =>
      have headInside := inside j (below j (by simp))
      rw [List.mapM_cons]
      cases read : s.look (src j) with
      | none => exact bind_error (fetch_null headInside read)
      | some tag =>
        have later : k ∈ places := by
          rcases List.mem_cons.mp member with rfl | later
          · simp [null] at read
          · exact later
        have rest := ih (fun i mem => below i (by simp [mem])) later
        rw [bind_ok (fetch_ok headInside read),bind_error rest]
  have stopped := stops (List.range n) (by simp) (by simp [small])
  rw [fetchEach,bind_error stopped]

theorem mtags_user {s : TagState T} {ea : BitVec 64} {r : (Nat → T) × TagState T}
    (run : fetchEach n (mtags ea) s = .ok r) : ∀ i < n, (ea.toNat + i) % 2 ^ 64 ≤ maxAddr := by
  intro i small
  by_contra above
  have null : s.look (mtags ea i) = none :=
    (mtags_look s ea i).trans (getb_beyond _ (Nat.lt_of_not_le above))
  have stopped : fetchEach n (mtags ea) s = .error .nullTag :=
    fetchEach_null (fun k _ => mtags_inside ea) small null
  exact absurd (stopped.symm.trans run) (by simp)

theorem look_user {s : TagState T} {ea : BitVec 64} {i : Nat} (user : (ea.toNat + i) % 2 ^ 64 ≤ maxAddr) :
    s.look (mtags ea i) = some ((s.look (mtags ea i)).getD clearedVal) := by
  rw [mtags_look,getb_user _ user]
  rfl

/-- The tags of an operand of `n` bytes are there exactly if every byte of it has a tag. -/
theorem mtags_read_iff (s : TagState T) (ea : BitVec 64) (n : Nat) :
    (∃ tags, fetchEach n (mtags ea) s = .ok (tags,s)) ↔ ∀ i < n, (ea.toNat + i) % 2 ^ 64 ≤ maxAddr := by
  constructor
  · rintro ⟨tags,run⟩
    exact mtags_user run
  · intro user
    obtain ⟨tags,run,-⟩ := fetchEach_ok (mtags ea) (fun k _ => mtags_inside ea) fun k small => look_user (s := s) (user k small)
    exact ⟨tags,run⟩

/-- After any writes, a read is defined at an address exactly if the address has a tag, and a
range query and a multi-byte operand are read to their ends exactly if all their bytes do. -/
theorem reads_defined_iff {σ : Type} (tagCombine : T → T → σ → T × σ) (writes : List (Write T)) :
    (∀ a, Defined (performAll tagmapSetb writes) a ↔ a ≤ maxAddr) ∧
    (∀ addr n keeps, (tagmapGetn tagCombine (performAll tagmapSetb writes) addr n keeps).isSome ↔
      ∀ i < n % 2 ^ 32, (addr + i) % 2 ^ 64 ≤ maxAddr) ∧
    ∀ (gpr : Nat → Nat → T) (ea : BitVec 64) (n : Nat),
      (∃ tags, fetchEach n (mtags ea) ⟨gpr,performAll tagmapSetb writes⟩ =
        .ok (tags,⟨gpr,performAll tagmapSetb writes⟩)) ↔ ∀ i < n, (ea.toNat + i) % 2 ^ 64 ≤ maxAddr := by
  refine ⟨defined_iff _,fun addr n keeps => ?_,fun gpr ea n => ?_⟩
  · exact getn_isSome_iff tagCombine _ addr n keeps
  · exact mtags_read_iff _ ea n

end Routines

/-- A tag written above the last address is ignored, and reading it back goes through the null pointer. -/
theorem reads_not_defined :
    ¬ ∀ (writes : List (Write UInt8)) (a : BitVec 64), Defined (performAll tagmapSetb writes) a.toNat := by
  intro claim
  have defined := claim [.setb 0x800000000000 1] 0x800000000000
  exact defined.pointer (getb_beyond _ (by decide))

end Libdft.ShadowReads
