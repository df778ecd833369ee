import Libdft.InsInspect
import Libdft.ShadowReads

/-! The register file on the stack. Saving takes the rows by their own numbers, from the first of
them on to the last before the vector registers; restoring counts from zero. A slot of the stack
is as wide as what is saved of one register. -/
namespace Libdft.Core

open TagMap TagTraits ShadowReads

/-- The slot that a loop variable stands for, and the variable that stands for a slot. -/
def slotOf (i : Nat) : Nat := if i < dftRegRsp then i else i - 1
def rowIn (m : Nat) : Nat := if m < dftRegRsp then m else m + 1

theorem stackOffset_eq (shift i : Nat) : stackOffset shift i = slotOf i * 2 ^ shift := by
  unfold stackOffset slotOf
  split <;> rw [Nat.shiftLeft_eq]

theorem rowIn_slotOf {i : Nat} (other : i ≠ dftRegRsp) : rowIn (slotOf i) = i := by
  unfold rowIn slotOf dftRegRsp at *
  split_ifs <;> omega

theorem slotOf_rowIn (m : Nat) : slotOf (rowIn m) = m := by
  unfold rowIn slotOf dftRegRsp
  split_ifs <;> omega

theorem rowIn_ne (m : Nat) : rowIn m ≠ dftRegRsp := by
  unfold rowIn dftRegRsp
  split <;> omega

theorem mtags_add (addr : BitVec 64) (off j : Nat) : mtags (addr + BitVec.ofNat 64 off) j = mtags addr (off + j) := by
  rw [mtags,mtags,BitVec.ofNat_add,BitVec.add_assoc]

/-- Bytes of different slots are apart, and every slot of the register file ends soon. -/
theorem slot_eq {w m m' j j' : Nat} (small : j < w) (small' : j' < w) (same : m * w + j = m' * w + j') : m = m' := by
  rcases Nat.lt_trichotomy m m' with less | eq | more
  · have := Nat.mul_le_mul_right w (Nat.succ_le_of_lt less)
    rw [Nat.succ_mul] at this
    omega
  · exact eq
  · have := Nat.mul_le_mul_right w (Nat.succ_le_of_lt more)
    rw [Nat.succ_mul] at this
    omega

theorem slot_lt {shift m j : Nat} (narrow : shift ≤ 2) (bound : m < 18) (small : j < 2 ^ shift) :
    m * 2 ^ shift + j < 2 ^ 64 := by
  have width : 2 ^ shift ≤ 2 ^ 2 := Nat.pow_le_pow_right (by decide) narrow
  have := Nat.mul_le_mul (Nat.le_of_lt bound) width
  omega

section Routines
variable {T : Type} [TagOps T] {s t : TagState T} {shift k : Nat} {addr : BitVec 64}

/-- While the rows are saved, `k` of them being done. -/
structure Saving (s t : TagState T) (shift : Nat) (addr : BitVec 64) (k : Nat) : Prop where
  gpr : t.gpr = s.gpr
  slots : ∀ m < 18, ∀ j < 2 ^ shift, t.look (mtags addr (m * 2 ^ shift + j)) =
    if dftRegRdi ≤ m ∧ rowIn m < dftRegRdi + k then (s.look (mtags addr (m * 2 ^ shift + j))).map fun _ => s.gpr (rowIn m) j
    else s.look (mtags addr (m * 2 ^ shift + j))

theorem Saving.row (saving : Saving s t shift addr k) (narrow : shift ≤ 2) (small : k < 16)
    (other : dftRegRdi + k ≠ dftRegRsp) : ∃ t', (do
      let srcTag ← fetchEach (1 <<< shift) (rtags (dftRegRdi + k))
      assignEach (1 <<< shift) (mtags (addr + BitVec.ofNat 64 (stackOffset shift (dftRegRdi + k)))) srcTag :
        Analysis T Unit) t = .ok ((),t') ∧ Saving s t' shift addr (k + 1) := by
  have width : 1 <<< shift = 2 ^ shift := by rw [Nat.shiftLeft_eq,Nat.one_mul]
  have narrowRow : 2 ^ shift ≤ 2 ^ 2 := Nat.pow_le_pow_right (by decide) narrow
  rw [width,stackOffset_eq]
  have inside : ∀ j < 2 ^ shift, (rtags (dftRegRdi + k) j).Inside := by
    intro j below
    rw [rtags_inside]
    unfold dftRegRdi grpNum tagsPerGpr
    omega
  have slotSmall : slotOf (dftRegRdi + k) < 18 := by
    unfold slotOf dftRegRdi dftRegRsp
    split_ifs <;> omega
  have apart (j j' : Nat) (less : j < j') (below : j' < 2 ^ shift) :
      mtags (addr + BitVec.ofNat 64 (slotOf (dftRegRdi + k) * 2 ^ shift)) j ≠
        mtags (addr + BitVec.ofNat 64 (slotOf (dftRegRdi + k) * 2 ^ shift)) j' := by
    intro same
    have := (mtags_inj (by omega) (by omega)).mp same
    omega
  obtain ⟨t',moved,wrote⟩ := moveEach_wrote (s := t) (v := t.gpr (dftRegRdi + k))
    (mtags (addr + BitVec.ofNat 64 (slotOf (dftRegRdi + k) * 2 ^ shift))) (rtags (dftRegRdi + k)) apart
    (fun j _ => mtags_inside _) inside fun _ _ => rfl
  refine ⟨t',moved,?_,fun m bound j below => ?_⟩
  · rw [← saving.gpr]
    funext row byte
    have kept := wrote.frame (rtags row byte) fun _ _ => rtags_ne_mtags _
    simpa [rtags] using kept
  · have bytes := slot_lt narrow bound below
    have rows : dftRegRdi ≤ m ∧ rowIn m < dftRegRdi + (k + 1) ↔
        (dftRegRdi ≤ m ∧ rowIn m < dftRegRdi + k) ∨ m = slotOf (dftRegRdi + k) := by
      unfold rowIn slotOf dftRegRdi dftRegRsp at *
      split_ifs <;> omega
    by_cases here : m = slotOf (dftRegRdi + k)
    · have before : ¬ (dftRegRdi ≤ m ∧ rowIn m < dftRegRdi + k) := by
        rw [here,rowIn_slotOf other]
        omega
      have old := saving.slots m bound j below
      rw [if_neg before] at old
      rw [if_pos (rows.mpr (.inr here)),here,← mtags_add,wrote.hit j below,mtags_add,← here,old,saving.gpr,here,
        rowIn_slotOf other]
    · have elsewhere : ∀ j' < 2 ^ shift, mtags addr (m * 2 ^ shift + j) ≠
          mtags (addr + BitVec.ofNat 64 (slotOf (dftRegRdi + k) * 2 ^ shift)) j' := by
        intro j' below' same
        rw [mtags_add] at same
        exact here (slot_eq below below' ((mtags_inj bytes (slot_lt narrow slotSmall below')).mp same))
      rw [wrote.frame _ elsewhere,saving.slots m bound j below]
      refine if_congr ?_ rfl rfl
      rw [rows,or_iff_left here]

theorem r2mSave_ends (s : TagState T) (narrow : shift ≤ 2) (addr : BitVec 64) :
    ∃ t, r2mSave shift addr s = .ok ((),t) ∧ Saving s t shift addr 16 := by
  refine forEach_ends (fun k t => Saving s t shift addr k) ⟨rfl,fun m _ j _ => ?_⟩ fun k small t saving => ?_
  · rw [if_neg]
    unfold rowIn dftRegRdi dftRegRsp
    split <;> omega
  · by_cases rsp : dftRegRdi + k = dftRegRsp
    · rw [if_pos rsp]
      refine ⟨t,rfl,saving.gpr,fun m bound j below => ?_⟩
      rw [saving.slots m bound j below]
      refine if_congr ?_ rfl rfl
      have := rowIn_ne m
      omega
    · rw [if_neg rsp]
      exact saving.row narrow small rsp

/-- The tag that a slot holds, where it has one. -/
def slotTag (t : TagState T) (shift : Nat) (addr : BitVec 64) (m j : Nat) : T :=
  (t.look (mtags addr (m * 2 ^ shift + j))).getD clearedVal

/-- While the rows are restored, `k` of them being done. -/
structure Restoring (t t' : TagState T) (shift : Nat) (addr : BitVec 64) (k : Nat) : Prop where
  mem : ∀ p : BitVec 64, t'.look (.mem p) = t.look (.mem p)
  rows : ∀ row j, t'.gpr row j =
    if j < 2 ^ shift ∧ dftRegRdi ≤ row ∧ row < dftRegRdi + k ∧ row ≠ dftRegRdi + dftRegRsp then
      slotTag t shift addr (slotOf (row - dftRegRdi)) j
    else t.gpr row j

theorem Restoring.row {t' : TagState T} (restoring : Restoring t t' shift addr k) (narrow : shift ≤ 2) (small : k < 8)
    (other : k ≠ dftRegRsp) (user : ∀ j < 2 ^ shift, (addr.toNat + (slotOf k * 2 ^ shift + j)) % 2 ^ 64 ≤ maxAddr) :
    ∃ t'', (do
      let srcTag ← fetchEach (1 <<< shift) (mtags (addr + BitVec.ofNat 64 (stackOffset shift k)))
      assignEach (1 <<< shift) (rtags (dftRegRdi + k)) srcTag : Analysis T Unit) t' = .ok ((),t'') ∧
        Restoring t t'' shift addr (k + 1) := by
  have width : 1 <<< shift = 2 ^ shift := by rw [Nat.shiftLeft_eq,Nat.one_mul]
  have narrowRow : 2 ^ shift ≤ 2 ^ 2 := Nat.pow_le_pow_right (by decide) narrow
  rw [width,stackOffset_eq]
  have present : ∀ j < 2 ^ shift, t'.look (mtags (addr + BitVec.ofNat 64 (slotOf k * 2 ^ shift)) j) =
      some (slotTag t shift addr (slotOf k) j) := by
    intro j below
    rw [mtags_add,slotTag,mtags,restoring.mem]
    exact look_user (user j below)
  have inside : ∀ j < 2 ^ shift, (rtags (dftRegRdi + k) j).Inside := by
    intro j below
    rw [rtags_inside]
    unfold dftRegRdi grpNum tagsPerGpr
    omega
  obtain ⟨t'',moved,wrote⟩ := moveEach_wrote (s := t') (rtags (dftRegRdi + k))
    (mtags (addr + BitVec.ofNat 64 (slotOf k * 2 ^ shift))) (fun j j' less _ => rtags_apart _ less) inside
    (fun _ _ => mtags_inside _) present
  refine ⟨t'',moved,fun p => ?_,fun row j => ?_⟩
  · have kept := wrote.frame (.mem p) fun _ _ => by simp [rtags]
    rw [kept,restoring.mem p]
  · by_cases here : row = dftRegRdi + k ∧ j < 2 ^ shift
    · obtain ⟨rfl,below⟩ := here
      have hit := wrote.hit j below
      have tag : t''.gpr (dftRegRdi + k) j = slotTag t shift addr (slotOf k) j := by simpa [rtags] using hit
      rw [tag,if_pos,Nat.add_sub_cancel_left]
      omega
    · have frame := wrote.frame (.reg row j) fun j' below' eq => by
        obtain ⟨rfl,rfl⟩ := rtags_inj.mp eq
        exact here ⟨rfl,below'⟩
      have kept : t''.gpr row j = t'.gpr row j := by simpa using frame
      rw [kept,restoring.rows row j]
      refine if_congr ?_ rfl rfl
      omega

/-- Restoring ends where every byte of the seven slots that are read has a tag. -/
theorem m2rRestore_ends (t : TagState T) (narrow : shift ≤ 2) (addr : BitVec 64)
    (user : ∀ i < 7 * 2 ^ shift, (addr.toNat + i) % 2 ^ 64 ≤ maxAddr) :
    ∃ t', m2rRestore shift addr t = .ok ((),t') ∧ Restoring t t' shift addr 8 := by
  refine forEach_ends (fun k t' => Restoring t t' shift addr k) ⟨fun _ => rfl,fun row j => ?_⟩ fun k small t' restoring => ?_
  · rw [if_neg]
    omega
  · by_cases rsp : k = dftRegRsp
    · rw [if_pos rsp]
      refine ⟨t',rfl,restoring.mem,fun row j => ?_⟩
      rw [restoring.rows row j]
      refine if_congr ?_ rfl rfl
      omega
    · rw [if_neg rsp]
      refine restoring.row narrow small rsp fun j below => user _ ?_
      have slot : slotOf k < 7 := by
        unfold slotOf dftRegRsp at *
        split_ifs <;> omega
      have := Nat.mul_le_mul_right (2 ^ shift) (Nat.succ_le_of_lt slot)
      rw [Nat.succ_mul] at this
      omega

theorem m2rRestore_user {t t' : TagState T} (run : m2rRestore shift addr t = .ok ((),t')) :
    ∀ i < 7 * 2 ^ shift, (addr.toNat + i) % 2 ^ 64 ≤ maxAddr := by
  intro i small
  have width : 1 <<< shift = 2 ^ shift := by rw [Nat.shiftLeft_eq,Nat.one_mul]
  have positive : 0 < 2 ^ shift := Nat.two_pow_pos shift
  have slot : i / 2 ^ shift < 7 := Nat.div_lt_of_lt_mul (by rwa [Nat.mul_comm])
  have other := rowIn_ne (i / 2 ^ shift)
  have round : rowIn (i / 2 ^ shift) < 8 := by
    unfold rowIn
    split <;> omega
  obtain ⟨u,u',one⟩ := forEach_rounds run _ round
  rw [if_neg other,width,stackOffset_eq,slotOf_rowIn] at one
  obtain ⟨_,_,fetched,_⟩ := bind_eq_ok one
  have inside := mtags_user fetched (i % 2 ^ shift) (Nat.mod_lt i positive)
  have whole := Nat.div_add_mod' i (2 ^ shift)
  rw [BitVec.toNat_add,BitVec.toNat_ofNat] at inside
  omega

/-- The registers that `POPA` and `POPAD` load. -/
def popped : List Gpr := [.rdi, .rsi, .rbp, .rbx, .rdx, .rcx, .rax]

/-- The registers are saved and, whatever became of their tags, restored: the low tags of the
registers that are loaded are as they were saved, and everything else is as it was before. -/
def RoundTrips (save restore : BitVec 64 → Analysis T Unit) (width : Nat) (s : TagState T) (addr : BitVec 64)
    (between : Nat → Nat → T) : Prop :=
  ∃ saved final, save addr s = .ok ((),saved) ∧ restore addr { saved with gpr := between } = .ok ((),final) ∧
    (∀ g ∈ popped, ∀ j < width, final.gpr g.row j = s.gpr g.row j) ∧
    ∀ row, (∀ g ∈ popped, row ≠ g.row) → ∀ j, final.gpr row j = between row j

/-- What makes the two layouts come to the same: three of the registers are loaded from below what was
saved, three others and the stack pointer have the tags of a neighbour, and RCX is left out. -/
structure LayoutsAgree (width : Nat) (s : TagState T) (addr : BitVec 64) (between : Nat → Nat → T) : Prop where
  user : ∀ i < 7 * width, (addr.toNat + i) % 2 ^ 64 ≤ maxAddr
  rdi : ∀ j < width, s.look (mtags addr j) = some (s.gpr Gpr.rdi.row j)
  rsi : ∀ j < width, s.look (mtags addr (width + j)) = some (s.gpr Gpr.rsi.row j)
  rbp : ∀ j < width, s.look (mtags addr (2 * width + j)) = some (s.gpr Gpr.rbp.row j)
  rsp : ∀ j < width, between Gpr.rsp.row j = s.gpr Gpr.rdi.row j
  rbx : ∀ j < width, s.gpr Gpr.rbx.row j = s.gpr Gpr.rsi.row j
  rdx : ∀ j < width, s.gpr Gpr.rdx.row j = s.gpr Gpr.rbp.row j
  rcx : ∀ j < width, between Gpr.rcx.row j = s.gpr Gpr.rcx.row j
  rax : ∀ j < width, s.gpr Gpr.rax.row j = s.gpr Gpr.rbx.row j

/-- What becomes of the tags: three of the registers are loaded from below what was saved, the next ones
from what was saved of the register three slots before, and RCX is left out. -/
structure Shifted (width : Nat) (s : TagState T) (addr : BitVec 64) (between : Nat → Nat → T) (final : TagState T) :
    Prop where
  rdi : ∀ j < width, s.look (mtags addr j) = some (final.gpr Gpr.rdi.row j)
  rsi : ∀ j < width, s.look (mtags addr (width + j)) = some (final.gpr Gpr.rsi.row j)
  rbp : ∀ j < width, s.look (mtags addr (2 * width + j)) = some (final.gpr Gpr.rbp.row j)
  rsp : ∀ j < width, final.gpr Gpr.rsp.row j = s.gpr Gpr.rdi.row j
  rbx : ∀ j < width, final.gpr Gpr.rbx.row j = s.gpr Gpr.rsi.row j
  rdx : ∀ j < width, final.gpr Gpr.rdx.row j = s.gpr Gpr.rbp.row j
  rax : ∀ j < width, final.gpr Gpr.rax.row j = s.gpr Gpr.rbx.row j
  kept : ∀ row j, row < dftRegRdi ∨ dftRegRax < row ∨ row = dftRegRcx ∨ width ≤ j → final.gpr row j = between row j

/-- What is loaded is as it was saved in just these cases. -/
theorem Shifted.layouts_iff {width : Nat} {between : Nat → Nat → T} {final : TagState T}
    (shifted : Shifted width s addr between final) (user : ∀ i < 7 * width, (addr.toNat + i) % 2 ^ 64 ≤ maxAddr) :
    ((∀ g ∈ popped, ∀ j < width, final.gpr g.row j = s.gpr g.row j) ∧
      ∀ row, (∀ g ∈ popped, row ≠ g.row) → ∀ j, final.gpr row j = between row j) ↔ LayoutsAgree width s addr between := by
  have rcx (j : Nat) : final.gpr Gpr.rcx.row j = between Gpr.rcx.row j := shifted.kept _ j (.inr (.inr (.inl rfl)))
  constructor
  · rintro ⟨same,rest⟩
    refine ⟨user,?_,?_,?_,?_,?_,?_,?_,?_⟩
    all_goals intro j small
    · rw [shifted.rdi j small,same .rdi (by decide) j small]
    · rw [shifted.rsi j small,same .rsi (by decide) j small]
    · rw [shifted.rbp j small,same .rbp (by decide) j small]
    · rw [← shifted.rsp j small,rest Gpr.rsp.row (by decide) j]
    · rw [← shifted.rbx j small,same .rbx (by decide) j small]
    · rw [← shifted.rdx j small,same .rdx (by decide) j small]
    · rw [← rcx j,same .rcx (by decide) j small]
    · rw [← shifted.rax j small,same .rax (by decide) j small]
  · intro agree
    refine ⟨fun g member j small => ?_,fun row other j => ?_⟩
    · simp only [popped,List.mem_cons,List.not_mem_nil,or_false] at member
      rcases member with rfl | rfl | rfl | rfl | rfl | rfl | rfl
      · exact Option.some.inj ((shifted.rdi j small).symm.trans (agree.rdi j small))
      · exact Option.some.inj ((shifted.rsi j small).symm.trans (agree.rsi j small))
      · exact Option.some.inj ((shifted.rbp j small).symm.trans (agree.rbp j small))
      · rw [shifted.rbx j small,agree.rbx j small]
      · rw [shifted.rdx j small,agree.rdx j small]
      · rw [rcx j,agree.rcx j small]
      · rw [shifted.rax j small,agree.rax j small]
    · by_cases rsp : row = Gpr.rsp.row ∧ j < width
      · obtain ⟨rfl,small⟩ := rsp
        rw [shifted.rsp j small,agree.rsp j small]
      · refine shifted.kept row j ?_
        simp only [popped,List.forall_mem_cons,Gpr.row] at other rsp
        unfold dftRegRdi dftRegRax dftRegRcx
        omega

theorem slot_in {m j w : Nat} (slot : m < 7) (small : j < w) : m * w + j < 7 * w := by
  have := Nat.mul_le_mul_right w (Nat.succ_le_of_lt slot)
  rw [Nat.succ_mul] at this
  omega

section Layouts
variable {between : Nat → Nat → T} (saving : Saving s t shift addr 16)
  (user : ∀ i < 7 * 2 ^ shift, (addr.toNat + i) % 2 ^ 64 ≤ maxAddr)
include saving user

/-- The three lowest slots hold what the memory held before. -/
theorem Saving.below {m j : Nat} (low : m < dftRegRdi) (small : j < 2 ^ shift) :
    s.look (mtags addr (m * 2 ^ shift + j)) = some (slotTag { t with gpr := between } shift addr m j) := by
  have slots := saving.slots m (by unfold dftRegRdi at low; omega) j small
  rw [if_neg (by omega)] at slots
  change _ = some ((t.look (mtags addr (m * 2 ^ shift + j))).getD clearedVal)
  rw [slots]
  exact look_user (user _ (slot_in (by unfold dftRegRdi at low; omega) small))

/-- The slots above them hold the rows in their order, the stack pointer left out. -/
theorem Saving.above {m j : Nat} (high : dftRegRdi ≤ m) (slot : m < 7) (small : j < 2 ^ shift) :
    slotTag { t with gpr := between } shift addr m j = s.gpr (rowIn m) j := by
  have slots := saving.slots m (by omega) j small
  have row : rowIn m < dftRegRdi + 16 := by
    unfold rowIn dftRegRdi
    split <;> omega
  have held := look_user (s := s) (user _ (slot_in slot small))
  rw [if_pos ⟨high,row⟩,held] at slots
  change (t.look (mtags addr (m * 2 ^ shift + j))).getD clearedVal = _
  rw [slots]
  rfl

/-- The registers that are loaded get what their slots hold, and the others keep what they had. -/
theorem Saving.shifted {final : TagState T} (restoring : Restoring { t with gpr := between } final shift addr 8) :
    Shifted (2 ^ shift) s addr between final := by
  have loaded (row : Nat) {j : Nat} (small : j < 2 ^ shift) (inside : dftRegRdi ≤ row ∧ row < dftRegRdi + 8)
      (other : row ≠ dftRegRcx) :
      final.gpr row j = slotTag { t with gpr := between } shift addr (slotOf (row - dftRegRdi)) j := by
    rw [restoring.rows row j,if_pos ⟨small,inside.1,inside.2,other⟩]
  have low (row : Nat) {j : Nat} (small : j < 2 ^ shift) (inside : dftRegRdi ≤ row ∧ row < dftRegRdi + 3) :
      s.look (mtags addr ((row - dftRegRdi) * 2 ^ shift + j)) = some (final.gpr row j) := by
    have slot : slotOf (row - dftRegRdi) = row - dftRegRdi := if_pos (by unfold dftRegRdi dftRegRsp at *; omega)
    rw [loaded row small (by omega) (by unfold dftRegRdi dftRegRcx at *; omega),slot]
    exact saving.below user (by unfold dftRegRdi at *; omega) small
  have high (row : Nat) {j : Nat} (small : j < 2 ^ shift) (inside : dftRegRdi + 3 ≤ row ∧ row < dftRegRdi + 8)
      (other : row ≠ dftRegRcx) : final.gpr row j = s.gpr (rowIn (slotOf (row - dftRegRdi))) j := by
    rw [loaded row small (by omega) other]
    refine saving.above user ?_ ?_ small
    all_goals
      unfold slotOf dftRegRdi dftRegRsp dftRegRcx at *
      split <;> omega
  refine ⟨fun j small => ?_,fun j small => ?_,fun j small => low 5 small (by decide),?_,?_,?_,?_,fun row j outside => ?_⟩
  · simpa [dftRegRdi,Gpr.row] using low 3 small (by decide)
  · simpa [dftRegRdi,Gpr.row] using low 4 small (by decide)
  · exact fun j small => high 6 small (by decide) (by decide)
  · exact fun j small => high 7 small (by decide) (by decide)
  · exact fun j small => high 8 small (by decide) (by decide)
  · exact fun j small => high 10 small (by decide) (by decide)
  · rw [restoring.rows row j,if_neg]
    unfold dftRegRdi dftRegRcx dftRegRax dftRegRsp at *
    omega

end Layouts

theorem roundTrips_iff (narrow : shift ≤ 2) (s : TagState T) (addr : BitVec 64) (between : Nat → Nat → T) :
    RoundTrips (r2mSave shift) (m2rRestore shift) (2 ^ shift) s addr between ↔ LayoutsAgree (2 ^ shift) s addr between := by
  obtain ⟨saved,ends,saving⟩ := r2mSave_ends s narrow addr
  constructor
  · rintro ⟨saved',final,ends',restored,same⟩
    obtain rfl : saved' = saved := by
      rw [ends] at ends'
      injection ends' with ends'
      injection ends' with _ ends'
      exact ends'.symm
    have user := m2rRestore_user restored
    obtain ⟨final',restored',restoring⟩ := m2rRestore_ends { saved' with gpr := between } narrow addr user
    obtain rfl : final' = final := by
      rw [restored] at restored'
      injection restored' with restored'
      injection restored' with _ restored'
      exact restored'.symm
    exact ((saving.shifted user restoring).layouts_iff user).mp same
  · intro agree
    obtain ⟨final,restored,restoring⟩ := m2rRestore_ends { saved with gpr := between } narrow addr agree.user
    exact ⟨saved,final,ends,restored,((saving.shifted agree.user restoring).layouts_iff agree.user).mpr agree⟩

/-- `PUSHA` and `POPA`, `PUSHAD` and `POPAD`: the tags come back where the two layouts come to the same. -/
theorem save_restore_iff (s : TagState T) (addr : BitVec 64) (between : Nat → Nat → T) :
    (RoundTrips r2mSaveOpw m2rRestoreOpw 2 s addr between ↔ LayoutsAgree 2 s addr between) ∧
      (RoundTrips r2mSaveOpl m2rRestoreOpl 4 s addr between ↔ LayoutsAgree 4 s addr between) :=
  ⟨roundTrips_iff (by decide : 1 ≤ 2) s addr between,roundTrips_iff (le_refl 2) s addr between⟩

end Routines

/-- Every register is clear but for the lowest byte of RSI. -/
def rsiTainted : TagState UInt8 where
  gpr := fun row j => if row = Gpr.rsi.row ∧ j = 0 then 1 else 0
  tagDir := empty

/-- RSI is tainted, the registers are saved, nothing changes them, and they are restored. -/
theorem restored_elsewhere : ¬ ∀ (s : TagState UInt8) (addr : BitVec 64) (between : Nat → Nat → UInt8),
    RoundTrips r2mSaveOpl m2rRestoreOpl 4 s addr between := by
  intro every
  have agree := (roundTrips_iff (le_refl 2) _ _ _).mp (every rsiTainted 0x1000 rsiTainted.gpr)
  have rbx := agree.rbx 0 (by decide)
  exact absurd rbx (by decide)

end Libdft.Core
