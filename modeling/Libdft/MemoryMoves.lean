import Libdft.BinaryUnion

/-! Moves from memory to memory, next to a move by way of a temporary. The loops go upwards and
read again what they have written where the destination begins inside the source. -/
namespace Libdft.Core

open TagTraits TagOps TagMap

/-- Bytes that have tags. -/
def UserBytes (addr : BitVec 64) (n : Nat) : Prop := ∀ i < n, (addr + BitVec.ofNat 64 i).toNat ≤ maxAddr

instance (addr : BitVec 64) (n : Nat) : Decidable (UserBytes addr n) := inferInstanceAs (Decidable (∀ i < n, _))

inductive MoveWidth where
  | b | w | l | q

def MoveWidth.bytes : MoveWidth → Nat
  | b => 1
  | w => 2
  | l => 4
  | q => 8

section Copy
variable {T : Type} [TagOps T] {s : TagState T}

/-- The routine of the width. -/
def MoveWidth.m2mXfer : MoveWidth → BitVec 64 → BitVec 64 → Analysis T Unit
  | b => m2mXferOpb
  | w => m2mXferOpw
  | l => m2mXferOpl
  | q => m2mXferOpq

theorem MoveWidth.m2mXfer_eq (width : MoveWidth) (dst src : BitVec 64) :
    (width.m2mXfer dst src : Analysis T Unit) = copyEach width.bytes (mtags dst) (mtags src) := by
  cases width with
  | b =>
    refine Eq.trans ?_ (copyEach_one _ _).symm
    rw [mtags_zero,mtags_zero]
    rfl
  | w | l | q => rfl

theorem UserBytes.tagged {addr : BitVec 64} (user : UserBytes addr n) (s : TagState T) (small : i < n) :
    s.look (mtags addr i) = some (tagAt s (mtags addr i)) := by
  apply look_tagAt
  rw [mtags,TagState.look,getb_user _ (user i small)]
  rfl

/-- The place of a byte of the source that the loop has already written. -/
theorem mtags_shift (dst src : BitVec 64) {k : Nat} (behind : (dst - src).toNat ≤ k) :
    mtags src k = mtags dst (k - (dst - src).toNat) := by
  have sum : src + BitVec.ofNat 64 k = dst + BitVec.ofNat 64 (k - (dst - src).toNat) := by
    apply BitVec.eq_of_toNat_eq
    rw [BitVec.toNat_sub] at behind ⊢
    simp only [BitVec.toNat_add,BitVec.toNat_ofNat]
    omega
  exact congrArg Place.mem sum

theorem mtags_ahead {dst src : BitVec 64} (lt : j < k) (small : k < 2 ^ 63) (same : mtags src k = mtags dst j) :
    0 < (dst - src).toNat ∧ (dst - src).toNat ≤ k := by
  have sum := congrArg BitVec.toNat (Place.mem.inj same)
  simp only [BitVec.toNat_add,BitVec.toNat_ofNat] at sum
  rw [BitVec.toNat_sub]
  omega

/-- Byte `k` of the destination gets the tag of the byte of the source that its place has by then. -/
theorem copyEach_forward {dst src : BitVec 64} (small : n < 2 ^ 63) (userDst : UserBytes dst n) (userSrc : UserBytes src n) :
    ∃ s', copyEach n (mtags dst) (mtags src) s = .ok ((),s') ∧
      Wrote s s' n (mtags dst) fun k => tagAt s (mtags src (k % (dst - src).toNat)) := by
  apply forEach_wrote fun j k lt below same => absurd ((mtags_inj (by omega) (by omega)).mp same) (Nat.ne_of_lt lt)
  intro k below t wrote
  apply copy_ok (mtags_inside dst) (mtags_inside src)
  by_cases behind : 0 < (dst - src).toNat ∧ (dst - src).toNat ≤ k
  · have earlier : k - (dst - src).toNat < k := by omega
    rw [mtags_shift dst src behind.2,wrote.hit _ earlier,userDst.tagged s (Nat.lt_trans earlier below),Nat.mod_eq_sub_mod behind.2]
    rfl
  · have first : k % (dst - src).toNat = k := by
      rcases Nat.eq_zero_or_pos (dst - src).toNat with zero | positive
      · rw [zero,Nat.mod_zero]
      · exact Nat.mod_eq_of_lt (by omega)
    rw [wrote.frame _ fun j lt same => behind (mtags_ahead lt (by omega) same),userSrc.tagged s below,first]

/-- As if the whole source were read before the destination is written. -/
structure Snapshot (s s' : TagState T) (n : Nat) (dst src : BitVec 64) : Prop where
  copied : ∀ i < n, s'.look (mtags dst i) = s.look (mtags src i)
  frame : ∀ p, (∀ i < n, p ≠ mtags dst i) → s'.look p = s.look p

/-- Behind the destination's first byte the tags of the source repeat. -/
def RepeatsBehind (s : TagState T) (n : Nat) (dst src : BitVec 64) : Prop :=
  ∀ i < n, (dst - src).toNat ≤ i → s.look (mtags src i) = s.look (mtags src (i - (dst - src).toNat))

theorem repeatsBehind_iff (s : TagState T) (n : Nat) (dst src : BitVec 64) :
    RepeatsBehind s n dst src ↔ ∀ i < n, s.look (mtags src (i % (dst - src).toNat)) = s.look (mtags src i) := by
  generalize distance : (dst - src).toNat = d
  unfold RepeatsBehind
  rw [distance]
  rcases Nat.eq_zero_or_pos d with rfl | positive
  · simp
  constructor
  · intro repeats i
    induction i using Nat.strongRecOn with
    | ind i ih =>
      intro small
      by_cases behind : d ≤ i
      · rw [Nat.mod_eq_sub_mod behind,ih (i - d) (by omega) (by omega),repeats i small behind]
      · rw [Nat.mod_eq_of_lt (by omega)]
  · intro equal i small behind
    rw [← equal i small,Nat.mod_eq_sub_mod behind,equal (i - d) (by omega)]

/-- A move is a snapshot copy if and only if the destination does not begin inside the source, or
the tags repeat from there. -/
theorem snapshot_iff (width : MoveWidth) (s : TagState T) (dst src : BitVec 64) (userDst : UserBytes dst width.bytes)
    (userSrc : UserBytes src width.bytes) :
    ∃ s', width.m2mXfer dst src s = .ok ((),s') ∧ (Snapshot s s' width.bytes dst src ↔ RepeatsBehind s width.bytes dst src) := by
  have small : width.bytes < 2 ^ 63 := by cases width <;> decide
  obtain ⟨s',run,wrote⟩ := copyEach_forward (s := s) small userDst userSrc
  refine ⟨s',by rw [MoveWidth.m2mXfer_eq,run],?_⟩
  have after (i : Nat) (below : i < width.bytes) :
      s'.look (mtags dst i) = s.look (mtags src (i % (dst - src).toNat)) := by
    rw [wrote.hit i below,userDst.tagged s below,userSrc.tagged s (Nat.lt_of_le_of_lt (Nat.mod_le i _) below)]
    rfl
  rw [repeatsBehind_iff]
  constructor
  · exact fun snapshot i below => (after i below).symm.trans (snapshot.copied i below)
  · exact fun equal => ⟨fun i below => (after i below).trans (equal i below),wrote.frame⟩

end Copy

/-- One tainted byte of memory. -/
def byteTainted (a : Nat) : TagState UInt8 := ⟨fun _ _ => 0,tagmapSetb TagMap.empty a 1⟩

theorem byteTainted_look {addr : BitVec 64} (user : addr.toNat ≤ maxAddr) :
    (byteTainted a).look (.mem addr) = some (if addr.toNat = a then 1 else 0) := by
  refine (tagmapSetb_puts (TagMap.empty : TagDir UInt8) a 1 addr.toNat).trans ?_
  simp only [user,and_true,getb_empty user]
  split <;> rfl

theorem snapshot_iff_apart : ∃ s', MoveWidth.q.m2mXfer 0x1008 0x1000 (byteTainted 0x1000) = .ok ((),s') ∧
    Snapshot (byteTainted 0x1000) s' 8 0x1008 0x1000 := by
  obtain ⟨s',run,snapshot⟩ := snapshot_iff .q (byteTainted 0x1000) 0x1008 0x1000 (by decide) (by decide)
  exact ⟨s',run,snapshot.mpr fun i small behind => absurd small (Nat.not_lt.mpr behind)⟩

/-- A word moved up by one byte: the first tag goes to both bytes. -/
theorem m2mXferOpw_smears : ¬ ∀ (s s' : TagState UInt8) (dst src : BitVec 64), UserBytes dst 2 → UserBytes src 2 →
    m2mXferOpw dst src s = .ok ((),s') → Snapshot s s' 2 dst src := by
  intro claim
  have userDst : UserBytes 0x1001 2 := by decide
  have userSrc : UserBytes 0x1000 2 := by decide
  obtain ⟨s',run,wrote⟩ := copyEach_forward (s := byteTainted 0x1000) (by decide) userDst userSrc
  have copied := (claim _ s' 0x1001 0x1000 userDst userSrc run).copied 1 (by decide)
  rw [wrote.hit 1 (by decide),userDst.tagged _ (by decide)] at copied
  have taint : (byteTainted 0x1000).look (mtags 0x1000 (1 % ((0x1001 : BitVec 64) - 0x1000).toNat)) = some 1 :=
    byteTainted_look (by decide)
  have clean : (byteTainted 0x1000).look (mtags 0x1000 1) = some 0 := byteTainted_look (by decide)
  rw [clean] at copied
  exact absurd (Option.some.inj copied) (by rw [tagAt_eq taint]; decide)

end Libdft.Core
