import Libdft.Widening

/-! XCHG and XADD: two operands that are both read and written. They may be one register, or meet
in it. -/
namespace Libdft.Core

open TagTraits TagOps TagMap

/-- A byte of the row that the wide exchange goes by. -/
def Scratch (p : Place) : Prop := ∃ i, p = rtags dftRegHelper1 i

/-- Two operands of one width, the registers among them general. -/
structure ExchangeForm (form : BinaryForm) (ins : Ins) : Prop where
  operands : form.Operands ins.operands
  general : (gprWidth form.selector).isSome

/-- Two operands of `n` bytes that meet, if at all, in bytes of one number. -/
structure Paired (n : Nat) (a b : Nat → Place) : Prop where
  first : ∀ i < n, ∀ j < n, a i = a j → i = j
  second : ∀ i < n, ∀ j < n, b i = b j → i = j
  meet : ∀ i < n, ∀ j < n, a i = b j → i = j
  inside : ∀ i < n, (a i).Inside ∧ (b i).Inside
  kept : ∀ i < n, ¬ Scratch (a i) ∧ ¬ Scratch (b i)

namespace Paired
variable {a b : Nat → Place}

theorem symm (paired : Paired n a b) : Paired n b a where
  first := paired.second
  second := paired.first
  meet := fun i hi j hj same => (paired.meet j hj i hi same.symm).symm
  inside := fun i small => (paired.inside i small).symm
  kept := fun i small => (paired.kept i small).symm

theorem assignFirst {T : Type} [TagOps T] (paired : Paired n a b) (s : TagState T) (tags : Nat → T) :
    ∃ s', assignEach n a tags s = .ok ((),s') ∧ Wrote s s' n a tags :=
  assignEach_wrote a tags
    (fun j k lt small same => absurd (paired.first j (Nat.lt_trans lt small) k small same) (Nat.ne_of_lt lt))
    fun k small => (paired.inside k small).1

end Paired

section Places
variable {T : Type} [TagOps T] {s : TagState T} {form : BinaryForm} {ins : Ins} {exec : Exec}

theorem gpr_not_scratch {r : Reg} (general : (gprWidth r).isSome) (i : Nat) : ¬ Scratch (regByte r i) := by
  rintro ⟨j,same⟩
  have row : regIndx r = 0 := (rtags_inj.mp same).1
  have positive (g : Gpr) : g.row ≠ 0 := by cases g <;> decide
  cases r with
  | gr64 g | gr32 g | gr16 g | lower8 g => exact positive g row
  | upper8 h => exact positive h.gpr row
  | invalid | xmm _ | ymm _ | zmm _ | mm _ | st _ | seg _ | other _ => cases general

theorem gprWidth_sameClass {dst src : Reg} (same : sameClass dst src) (general : (gprWidth dst).isSome) : (gprWidth src).isSome := by
  cases dst <;> cases src <;> first | rfl | exact absurd same Bool.false_ne_true | exact absurd general Bool.false_ne_true

theorem ExchangeForm.dst_scratch (exchanges : ExchangeForm form ins) (exec : Exec) (i : Nat) : ¬ Scratch (form.dst exec i) := by
  have general := exchanges.general
  cases form with
  | registers dst src | load dst => exact gpr_not_scratch general i
  | store src => exact fun ⟨_,same⟩ => mtags_ne_rtags _ same

theorem ExchangeForm.src_scratch (exchanges : ExchangeForm form ins) (exec : Exec) (i : Nat) : ¬ Scratch (form.src exec i) := by
  have general := exchanges.general
  cases form with
  | store src => exact gpr_not_scratch general i
  | load dst => exact fun ⟨_,same⟩ => mtags_ne_rtags _ same
  | registers dst src =>
    exact gpr_not_scratch (gprWidth_sameClass exchanges.operands.1 general) i

theorem ExchangeForm.sizes (exchanges : ExchangeForm form ins) :
    form.width = 1 ∨ form.width = 2 ∨ form.width = 4 ∨ form.width = 8 := by
  obtain ⟨n,width⟩ := Option.isSome_iff_exists.mp exchanges.general
  have same : form.width = n := (gprWidth_eq width).symm
  unfold gprWidth at width
  split at width <;> simp_all

theorem src_inj (operands : form.Operands ins.operands) (exec : Exec) {i j : Nat} (hi : i < form.width) (hj : j < form.width)
    (same : form.src exec i = form.src exec j) : i = j := by
  have bound := form.width_le
  cases form with
  | registers dst src | store src => exact (regByte_inj src i j).mp same
  | load dst => exact (mtags_inj (by omega) (by omega)).mp same

theorem ExchangeForm.paired (exchanges : ExchangeForm form ins) (exec : Exec) :
    Paired form.width (form.dst exec) (form.src exec) where
  first := fun _ hi _ hj same => form.dst_inj exec hi hj same
  second := fun _ hi _ hj same => src_inj exchanges.operands exec hi hj same
  meet := fun _ hi _ hj same => (BinaryForm.src_dst exchanges.operands hj hi same.symm).symm
  inside := fun _ hi => ⟨form.dst_inside exec hi,BinaryForm.src_inside exchanges.operands exec hi⟩
  kept := fun i _ => ⟨exchanges.dst_scratch exec i,exchanges.src_scratch exec i⟩

end Places

section Exchange
variable {T : Type} [TagOps T] {s : TagState T} {a b : Nat → Place}

/-- The tags of two operands have changed places, by way of the scratch row or not. -/
structure Swapped (n : Nat) (a b : Nat → Place) (s s' : TagState T) : Prop where
  first : ∀ i < n, s'.look (a i) = s.look (b i)
  second : ∀ i < n, s'.look (b i) = s.look (a i)
  frame : ∀ p, ¬ Scratch p → (∀ i < n, p ≠ a i ∧ p ≠ b i) → s'.look p = s.look p

theorem Swapped.symm {s' : TagState T} (swapped : Swapped n a b s s') : Swapped n b a s s' :=
  ⟨swapped.second,swapped.first,fun p kept outside => swapped.frame p kept fun i small => (outside i small).symm⟩

/-- Twice is not at all. -/
theorem Swapped.twice {s' s'' : TagState T} (swapped : Swapped n a b s s') (again : Swapped n a b s' s'') (p : Place)
    (kept : ¬ Scratch p) : s''.look p = s.look p := by
  by_cases any : ∃ i < n, p = a i
  · obtain ⟨i,small,rfl⟩ := any
    rw [again.first i small,swapped.second i small]
  by_cases any' : ∃ i < n, p = b i
  · obtain ⟨i,small,rfl⟩ := any'
    rw [again.second i small,swapped.first i small]
  have outside (i : Nat) (small : i < n) : p ≠ a i ∧ p ≠ b i :=
    ⟨fun same => any ⟨i,small,same⟩,fun same => any' ⟨i,small,same⟩⟩
  rw [again.frame p kept outside,swapped.frame p kept outside]

/-- Each operand was given what the other had had. -/
theorem WroteBoth.swapped {t s' : TagState T} {u v : Nat → T} (wrote : WroteBoth t s' n a u b v) (paired : Paired n a b)
    (same : ∀ p, ¬ Scratch p → t.look p = s.look p) (read : ∀ k < n, s.look (a k) = some (v k))
    (read' : ∀ k < n, s.look (b k) = some (u k)) : Swapped n a b s s' := by
  have before (k : Nat) (small : k < n) : t.look (a k) = some (v k) := (same _ (paired.kept k small).1).trans (read k small)
  have before' (k : Nat) (small : k < n) : t.look (b k) = some (u k) := (same _ (paired.kept k small).2).trans (read' k small)
  have second (k : Nat) (small : k < n) : s'.look (b k) = s.look (a k) := by
    rw [wrote.second k small,before' k small,read k small]
    rfl
  refine ⟨fun k small => ?_,second,fun p kept outside => ?_⟩
  · by_cases meets : a k = b k
    · rw [meets,second k small,meets]
    · have apart (j : Nat) (below : j < n) : a k ≠ b j := by
        intro met
        obtain rfl := paired.meet k small j below met
        exact meets met
      rw [wrote.first k small apart,before k small,read' k small]
      rfl
  · rw [wrote.frame p (fun k small => (outside k small).1) fun k small => (outside k small).2,same p kept]

/-- By way of the scratch row. -/
def exchangeByHelper (n : Nat) (dst src : Nat → Place) : Analysis T Unit := do
  copyEach n (rtags dftRegHelper1) dst
  copyEach n dst src
  copyEach n src (rtags dftRegHelper1)

theorem exchange_swapped (paired : Paired n a b) {u v : Nat → T} (read : ∀ k < n, s.look (a k) = some (u k))
    (read' : ∀ k < n, s.look (b k) = some (v k)) : ∃ s', exchange n a b s = .ok ((),s') ∧ Swapped n a b s s' := by
  obtain ⟨dstTag,fetched,dstEq⟩ := fetchEach_ok a (fun k small => (paired.inside k small).1) read
  obtain ⟨srcTag,fetched',srcEq⟩ := fetchEach_ok b (fun k small => (paired.inside k small).2) read'
  obtain ⟨t,run,first⟩ := paired.assignFirst s srcTag
  obtain ⟨s',run',second⟩ := paired.symm.assignFirst t dstTag
  refine ⟨s',?_,(first.both second).swapped paired (fun _ _ => rfl) (fun k small => ?_) fun k small => ?_⟩
  · rw [exchange,bind_ok fetched,bind_ok fetched',bind_ok run,run']
  · rw [read k small,dstEq k small]
  · rw [read' k small,srcEq k small]

variable {form : BinaryForm} {ins : Ins} {exec : Exec}

/-- Nothing but the scratch row is written before the operands have both been read. -/
theorem exchangeByHelper_swapped (paired : Paired n a b) (fits : n ≤ tagsPerGpr) {u v : Nat → T}
    (read : ∀ k < n, s.look (a k) = some (u k)) (read' : ∀ k < n, s.look (b k) = some (v k)) :
    ∃ s', exchangeByHelper n a b s = .ok ((),s') ∧ Swapped n a b s s' := by
  have helper (k : Nat) (small : k < n) : (rtags dftRegHelper1 k).Inside := ⟨Nat.zero_le _,Nat.lt_of_lt_of_le small fits⟩
  have ahead {c : Nat → Place} (k : Nat) (kept : ¬ Scratch (c k)) (j : Nat) : c k ≠ rtags dftRegHelper1 j :=
    fun same => kept ⟨j,same⟩
  obtain ⟨t,run,saved⟩ := copyEach_wrote (rtags dftRegHelper1) a (v := u)
    (fun j k lt _ same => absurd (rtags_inj.mp same).2 (Nat.ne_of_lt lt))
    (fun j k _ small same => absurd same.symm (ahead k (paired.kept k small).1 j)) helper
    (fun k small => (paired.inside k small).1) read
  have same (p : Place) (kept : ¬ Scratch p) : t.look p = s.look p := saved.frame p fun k _ => (kept ⟨k,·⟩)
  obtain ⟨t',run',first⟩ := copyEach_wrote a b (s := t) (v := v)
    (fun j k lt small same => absurd (paired.first j (Nat.lt_trans lt small) k small same) (Nat.ne_of_lt lt))
    (fun j k lt small same => absurd (paired.meet j (Nat.lt_trans lt small) k small same) (Nat.ne_of_lt lt))
    (fun k small => (paired.inside k small).1) (fun k small => (paired.inside k small).2)
    fun k small => (same _ (paired.kept k small).2).trans (read' k small)
  have held (k : Nat) (small : k < n) : t'.look (rtags dftRegHelper1 k) = some (u k) := by
    rw [first.frame _ fun j below => (ahead j (paired.kept j below).1 k).symm,saved.hit k small]
    rfl
  obtain ⟨s',run'',second⟩ := copyEach_wrote b (rtags dftRegHelper1) (s := t') (v := u)
    (fun j k lt small same => absurd (paired.second j (Nat.lt_trans lt small) k small same) (Nat.ne_of_lt lt))
    (fun j k lt small same => absurd same (ahead j (paired.kept j (Nat.lt_trans lt small)).2 k))
    (fun k small => (paired.inside k small).2) helper held
  refine ⟨s',?_,(first.both second).swapped paired same read read'⟩
  rw [exchangeByHelper,bind_ok run,bind_ok run',run'']

omit [TagOps T] in
theorem run_xchgByHelper (fn : Nat → Nat → Analysis T Unit) (dst src : Reg) (exec : Exec) :
    (xchgByHelper fn dst src).run exec = (do
      fn dftRegHelper1 (regIndx dst)
      fn (regIndx dst) (regIndx src)
      fn (regIndx src) dftRegHelper1) := by
  simp [xchgByHelper,Calls.run,dftRegHelper1]

omit [TagOps T] in
/-- The halves that are told apart are the bytes of the two registers. -/
theorem byHalf_bytes (move : Place → Place → Analysis T Unit) {dst src : Reg} (dst8 : dst.isGr8) (src8 : src.isGr8) :
    byHalf dst src (fun d r => move (rtags d 0) (rtags r 0)) (fun d r => move (rtags d 1) (rtags r 1))
      (fun d r => move (rtags d 0) (rtags r 1)) (fun d r => move (rtags d 1) (rtags r 0)) (regIndx dst) (regIndx src) =
      move (regByte dst 0) (regByte src 0) := by
  cases dst <;> first
    | exact absurd dst8 Bool.false_ne_true
    | cases src <;> first | exact absurd src8 Bool.false_ne_true | rfl

theorem xchgM2r_bytes {r : Reg} (general : (gprWidth r).isSome) (addr : BitVec 64) :
    (xchgM2r r (regIndx r) addr : Analysis T Unit) = exchange (classWidth r) (regByte r) (mtags addr) := by
  cases r with
  | gr64 _ | gr32 _ | gr16 _ => rfl
  | lower8 g =>
    show exchange 1 (fun _ => rtags g.row 0) (fun _ => .mem addr) = _
    rw [← mtags_zero]
    rfl
  | upper8 h =>
    show exchange 1 (fun _ => rtags h.gpr.row 1) (fun _ => .mem addr) = _
    rw [← mtags_zero]
    rfl
  | invalid | xmm _ | ymm _ | zmm _ | mm _ | st _ | seg _ | other _ => cases general

theorem insXchgOp_form (exchanges : ExchangeForm form ins) (exec : Exec) :
    (insXchgOp ins).run exec = exchange (T := T) form.width (form.dst exec) (form.src exec) ∨
      (insXchgOp ins).run exec = exchange (T := T) form.width (form.src exec) (form.dst exec) ∨
      (insXchgOp ins).run exec = exchangeByHelper (T := T) form.width (form.dst exec) (form.src exec) := by
  cases form with
  | registers dst src =>
    obtain ⟨same,rest,list,none⟩ := exchanges.operands
    have general : (gprWidth dst).isSome := exchanges.general
    have count : ins.memoryOperandCount = 0 := Ins.count_registers list none
    have first : ins.operandReg 0 = dst := Ins.operandReg_first list
    have second : ins.operandReg 1 = src := Ins.operandReg_second list
    rw [insXchgOp,if_pos count,first,second]
    cases dst with
    | gr64 g =>
      cases src with
      | gr64 g' => exact .inr (.inr (run_xchgByHelper r2rXferOpq _ _ exec))
      | _ => exact absurd same Bool.false_ne_true
    | gr32 g =>
      cases src with
      | gr32 g' => exact .inr (.inr (run_xchgByHelper r2rXferOpl _ _ exec))
      | _ => exact absurd same Bool.false_ne_true
    | gr16 g =>
      cases src with
      | gr16 g' => exact .inl (run_r2rCall xchgR2rOpw _ _ exec)
      | _ => exact absurd same Bool.false_ne_true
    | lower8 g | upper8 h =>
      exact .inl ((run_r2rCall _ _ _ exec).trans (byHalf_bytes (fun d p => exchange 1 (fun _ => d) fun _ => p) rfl same))
    | invalid | xmm _ | ymm _ | zmm _ | mm _ | st _ | seg _ | other _ => cases general
  | load dst =>
    obtain ⟨size,rest,list⟩ := exchanges.operands
    have count : ins.memoryOperandCount ≠ 0 := Ins.count_load list
    have memory : ins.operandIsMemory 1 := Ins.memory_second list
    have first : ins.operandReg 0 = dst := Ins.operandReg_first list
    rw [insXchgOp,if_neg count,if_pos memory,first,run_m2rCall]
    exact .inl (xchgM2r_bytes exchanges.general _)
  | store src =>
    obtain ⟨size,rest,list⟩ := exchanges.operands
    have count : ins.memoryOperandCount ≠ 0 := Ins.count_store list
    have memory : ¬ ins.operandIsMemory 1 := by simp [Ins.operandIsMemory,list,Operand.isMemory]
    have second : ins.operandReg 1 = src := Ins.operandReg_second list
    rw [insXchgOp,if_neg count,if_neg memory,second,run_single]
    exact .inr (.inl (xchgM2r_bytes exchanges.general _))

theorem insXchgOp_swapped (exchanges : ExchangeForm form ins) (readable : form.Readable exec) (s : TagState T) :
    ∃ s', (insXchgOp ins).run exec s = .ok ((),s') ∧ Swapped form.width (form.dst exec) (form.src exec) s s' := by
  have paired := exchanges.paired exec
  have places := (form.readable_iff s exec).mp readable
  have read (i : Nat) (small : i < form.width) := look_tagAt (places i small).1
  have read' (i : Nat) (small : i < form.width) := look_tagAt (places i small).2
  rcases insXchgOp_form (T := T) exchanges exec with direct | turned | byHelper
  · rw [direct]
    exact exchange_swapped paired read read'
  · obtain ⟨s',run,swapped⟩ := exchange_swapped paired.symm read' read
    exact ⟨s',turned ▸ run,swapped.symm⟩
  · rw [byHelper]
    exact exchangeByHelper_swapped paired form.width_le read read'

end Exchange

section Add
variable {T : Type} [TagOps T] [TagLabels T] {s : TagState T} {a b : Nat → Place}

/-- The first operand has the union, the second what the first had. -/
structure Added (n : Nat) (a b : Nat → Place) (s s' : TagState T) : Prop where
  united : ∀ i < n, ∃ new, s'.look (a i) = some new ∧ labels new = labels (tagAt s (a i)) ∪ labels (tagAt s (b i))
  moved : ∀ i < n, s'.look (b i) = s.look (a i)
  frame : ∀ p, (∀ i < n, p ≠ a i ∧ p ≠ b i) → s'.look p = s.look p

/-- Where the operands are one place, the union is the old tag again. -/
theorem WroteBoth.added {s' : TagState T} {u v : Nat → T} (wrote : WroteBoth s s' n a u b v) (paired : Paired n a b)
    (tagged : ∀ k < n, (s.look (a k)).isSome ∧ (s.look (b k)).isSome)
    (tags : ∀ k < n, u k = tagCombine (tagAt s (a k)) (tagAt s (b k)) ∧ v k = tagAt s (a k)) : Added n a b s s' := by
  have moved (k : Nat) (small : k < n) : s'.look (b k) = s.look (a k) := by
    rw [wrote.second k small,look_tagAt (tagged k small).1,look_tagAt (tagged k small).2,(tags k small).2]
    rfl
  refine ⟨fun k small => ?_,moved,fun p outside => wrote.frame p (fun k small => (outside k small).1) fun k small => (outside k small).2⟩
  by_cases meets : a k = b k
  · refine ⟨tagAt s (a k),?_,?_⟩
    · rw [← look_tagAt (tagged k small).1,← moved k small,meets]
    · rw [← meets,Set.union_self]
  · have apart (j : Nat) (below : j < n) : a k ≠ b j := by
      intro met
      obtain rfl := paired.meet k small j below met
      exact meets met
    refine ⟨u k,?_,by rw [(tags k small).1,labels_combine]⟩
    rw [wrote.first k small apart,look_tagAt (tagged k small).1]
    rfl

theorem xaddByte_added (paired : Paired 1 a b) (tagged : ∀ k < 1, (s.look (a k)).isSome ∧ (s.look (b k)).isSome) :
    ∃ s', xaddByte (a 0) (b 0) s = .ok ((),s') ∧ Added 1 a b s s' := by
  have zero : 0 < 1 := Nat.one_pos
  have first := Wrote.one s a fun k => tagCombine (tagAt s (a k)) (tagAt s (b k))
  have second := Wrote.one (s.put (tagCombine (tagAt s (a 0)) (tagAt s (b 0))) (a 0)) b fun k => tagAt s (a k)
  refine ⟨_,?_,(first.both second).added paired tagged fun k _ => ⟨rfl,rfl⟩⟩
  have inside := paired.inside 0 zero
  have read := look_tagAt (tagged 0 zero).1
  rw [xaddByte,bind_ok (fetch_ok inside.1 read),bind_ok (combine_ok inside.1 inside.2 read (look_tagAt (tagged 0 zero).2)),
    assign_ok inside.2]

theorem xaddEach_added (paired : Paired n a b) (tagged : ∀ k < n, (s.look (a k)).isSome ∧ (s.look (b k)).isSome) :
    ∃ s', xaddEach n a b s = .ok ((),s') ∧ Added n a b s s' := by
  obtain ⟨dstTag,fetched,dstEq⟩ := fetchEach_ok a (fun k small => (paired.inside k small).1) fun k small => look_tagAt (tagged k small).1
  obtain ⟨srcTag,fetched',srcEq⟩ := fetchEach_ok b (fun k small => (paired.inside k small).2) fun k small => look_tagAt (tagged k small).2
  obtain ⟨s',run,wrote⟩ := assignBoth_wrote (s := s) (a := a) (b := b) (fun i => tagCombine (dstTag i) (srcTag i)) dstTag
    (fun j k lt small same => Nat.ne_of_lt lt (paired.first j (Nat.lt_trans lt small) k small same))
    (fun j k lt small same => Nat.ne_of_lt lt (paired.second j (Nat.lt_trans lt small) k small same))
    (fun j k lt small same => Nat.ne_of_gt lt (paired.meet k small j (Nat.lt_trans lt small) same))
    (fun k small => (paired.inside k small).1) fun k small => (paired.inside k small).2
  refine ⟨s',?_,wrote.added paired tagged fun k small => ⟨by rw [dstEq k small,srcEq k small],dstEq k small⟩⟩
  rw [xaddEach,bind_ok fetched,bind_ok fetched',run]

theorem xaddR2rOpw_added {dst src : Nat} (paired : Paired 2 (rtags dst) (rtags src)) :
    ∃ s', xaddR2rOpw dst src s = .ok ((),s') ∧ Added 2 (rtags dst) (rtags src) s s' := by
  have tagged (k : Nat) (_ : k < 2) : (s.look (rtags dst k)).isSome ∧ (s.look (rtags src k)).isSome := ⟨rfl,rfl⟩
  obtain ⟨dstTag,fetched,dstEq⟩ := fetchEach_ok (rtags dst) (fun k small => (paired.inside k small).1) fun k small => look_tagAt (tagged k small).1
  obtain ⟨srcTag,fetched',srcEq⟩ := fetchEach_ok (rtags src) (fun k small => (paired.inside k small).2) fun k small => look_tagAt (tagged k small).2
  obtain ⟨t,run,first⟩ := paired.assignFirst s fun i => tagCombine (dstTag i) (srcTag i)
  obtain ⟨s',run',second⟩ := paired.symm.assignFirst t dstTag
  refine ⟨s',?_,(first.both second).added paired tagged fun k small => ⟨by rw [dstEq k small,srcEq k small],dstEq k small⟩⟩
  rw [xaddR2rOpw,bind_ok fetched,bind_ok fetched',bind_ok run,run']

theorem xaddR2m_added (paired : Paired n a b) (apart : ∀ j < n, ∀ k < n, b j ≠ a k)
    (tagged : ∀ k < n, (s.look (a k)).isSome ∧ (s.look (b k)).isSome) :
    ∃ s', xaddR2m n a b s = .ok ((),s') ∧ Added n a b s s' := by
  obtain ⟨srcTag,fetched,srcEq⟩ := fetchEach_ok b (fun k small => (paired.inside k small).2) fun k small => look_tagAt (tagged k small).2
  obtain ⟨dstTag,fetched',dstEq⟩ := fetchEach_ok a (fun k small => (paired.inside k small).1) fun k small => look_tagAt (tagged k small).1
  obtain ⟨t,run,first⟩ := paired.symm.assignFirst s dstTag
  obtain ⟨s',run',second⟩ := paired.assignFirst t fun i => tagCombine (dstTag i) (srcTag i)
  refine ⟨s',?_,((first.both second).symm apart).added paired tagged fun k small => ⟨by rw [dstEq k small,srcEq k small],dstEq k small⟩⟩
  rw [xaddR2m,bind_ok fetched,bind_ok fetched',bind_ok run,run']

variable {form : BinaryForm} {ins : Ins} {exec : Exec}

omit [TagLabels T] in
theorem insXaddOp_form (exchanges : ExchangeForm form ins) (notLoad : ∀ dst, form ≠ .load dst) (exec : Exec) :
    (insXaddOp ins).run exec = xaddEach (T := T) form.width (form.dst exec) (form.src exec) ∨
      (∃ g g', form = .registers (.gr16 g) (.gr16 g') ∧ (insXaddOp ins).run exec = xaddR2rOpw (T := T) g.row g'.row) ∨
      (form.width = 1 ∧ (insXaddOp ins).run exec = xaddByte (T := T) (form.dst exec 0) (form.src exec 0)) ∨
      ∃ src, form = .store src ∧ (insXaddOp ins).run exec = xaddR2m (T := T) form.width (form.dst exec) (form.src exec) := by
  cases form with
  | load dst => exact absurd rfl (notLoad dst)
  | registers dst src =>
    obtain ⟨same,rest,list,none⟩ := exchanges.operands
    have general : (gprWidth dst).isSome := exchanges.general
    have count : ins.memoryOperandCount = 0 := Ins.count_registers list none
    have first : ins.operandReg 0 = dst := Ins.operandReg_first list
    have second : ins.operandReg 1 = src := Ins.operandReg_second list
    rw [insXaddOp,if_pos count,first,second]
    cases dst with
    | gr64 g =>
      cases src with
      | gr64 g' => exact .inl (run_r2rCall xaddR2rOpq _ _ exec)
      | _ => exact absurd same Bool.false_ne_true
    | gr32 g =>
      cases src with
      | gr32 g' => exact .inl (run_r2rCall xaddR2rOpl _ _ exec)
      | _ => exact absurd same Bool.false_ne_true
    | gr16 g =>
      cases src with
      | gr16 g' => exact .inr (.inl ⟨g,g',rfl,run_r2rCall xaddR2rOpw _ _ exec⟩)
      | _ => exact absurd same Bool.false_ne_true
    | lower8 g | upper8 h =>
      exact .inr (.inr (.inl ⟨rfl,(run_r2rCall _ _ _ exec).trans (byHalf_bytes xaddByte rfl same)⟩))
    | invalid | xmm _ | ymm _ | zmm _ | mm _ | st _ | seg _ | other _ => cases general
  | store src =>
    obtain ⟨size,rest,list⟩ := exchanges.operands
    have general : (gprWidth src).isSome := exchanges.general
    have count : ins.memoryOperandCount ≠ 0 := Ins.count_store list
    have second : ins.operandReg 1 = src := Ins.operandReg_second list
    rw [insXaddOp,if_neg count,second]
    cases src with
    | gr64 g => exact .inl (run_r2mCall xaddR2mOpq _ exec)
    | gr32 g => exact .inl (run_r2mCall xaddR2mOpl _ exec)
    | gr16 g => exact .inr (.inr (.inr ⟨_,rfl,run_r2mCall xaddR2mOpw _ exec⟩))
    | lower8 g =>
      refine .inr (.inr (.inr ⟨_,rfl,(run_r2mCall xaddR2mOpbL _ exec).trans ?_⟩))
      show xaddR2m 1 (fun _ => .mem exec.memorywriteEa) (fun _ => rtags g.row 0) = _
      rw [← mtags_zero]
      rfl
    | upper8 h =>
      refine .inr (.inr (.inr ⟨_,rfl,(run_r2mCall xaddR2mOpbU _ exec).trans ?_⟩))
      show xaddR2m 1 (fun _ => .mem exec.memorywriteEa) (fun _ => rtags h.gpr.row 1) = _
      rw [← mtags_zero]
      rfl
    | invalid | xmm _ | ymm _ | zmm _ | mm _ | st _ | seg _ | other _ => cases general

theorem insXaddOp_added (exchanges : ExchangeForm form ins) (notLoad : ∀ dst, form ≠ .load dst) (readable : form.Readable exec)
    (s : TagState T) : ∃ s', (insXaddOp ins).run exec s = .ok ((),s') ∧ Added form.width (form.dst exec) (form.src exec) s s' := by
  have paired := exchanges.paired exec
  have tagged := (form.readable_iff s exec).mp readable
  rcases insXaddOp_form (T := T) exchanges notLoad exec with each | ⟨g,g',rfl,words⟩ | ⟨one,byte⟩ | ⟨src,rfl,memory⟩
  · rw [each]
    exact xaddEach_added paired tagged
  · rw [words]
    exact xaddR2rOpw_added paired
  · rw [byte,one]
    rw [one] at paired tagged
    exact xaddByte_added paired tagged
  · rw [memory]
    exact xaddR2m_added paired (fun _ _ _ _ => rtags_ne_mtags _) tagged

/-- XCHG swaps, and a second one at the same places swaps back; XADD has no form that loads. -/
theorem xchg_swaps_xadd_adds (exchanges : ExchangeForm form ins) (readable : form.Readable exec) (s : TagState T) :
    (ins.opcode.entry = .xchg → ∃ s', analyse ins exec s = .ok ((),s') ∧
      Swapped form.width (form.dst exec) (form.src exec) s s' ∧
      ∀ exec', form.dst exec' = form.dst exec → form.src exec' = form.src exec →
        ∃ s'', analyse ins exec' s' = .ok ((),s'') ∧ ∀ p, ¬ Scratch p → s''.look p = s.look p) ∧
    (ins.opcode.entry = .xadd → (∀ dst, form ≠ .load dst) → ∃ s', analyse ins exec s = .ok ((),s') ∧
      Added form.width (form.dst exec) (form.src exec) s s') := by
  constructor
  · intro xchg
    have routine (exec : Exec) : (analyse ins exec : Analysis T Unit) = (insXchgOp ins).run exec := by
      simp only [analyse,insInspect,xchg]
    simp only [routine]
    obtain ⟨s',run,swapped⟩ := insXchgOp_swapped exchanges readable s
    refine ⟨s',run,swapped,fun exec' sameDst sameSrc => ?_⟩
    have readable' : form.Readable exec' := by
      rw [form.readable_iff s,sameDst,sameSrc,← form.readable_iff s]
      exact readable
    obtain ⟨s'',run',again⟩ := insXchgOp_swapped exchanges readable' s'
    rw [sameDst,sameSrc] at again
    exact ⟨s'',run',swapped.twice again⟩
  · intro xadd notLoad
    simp only [analyse,insInspect,xadd]
    exact insXaddOp_added exchanges notLoad readable s

end Add

/-- `XCHG AL, AH` -/
def xchgAlAh : Ins := ⟨.xchg,[.reg (.lower8 .rax),.reg (.upper8 .ah)],fun _ => false,.invalid,.invalid,false,.invalid⟩

/-- `XADD [RDI], RAX` -/
def xaddMemRax : Ins := ⟨.xadd,[.mem 8,.reg (.gr64 .rax)],fun _ => false,.gr64 .rdi,.invalid,false,.invalid⟩

theorem xchg_swaps_xadd_adds_alAh :
    (∃ s', analyse xchgAlAh (.plain 0) (rowTainted dftRegRax) = .ok ((),s') ∧
      Swapped 1 (regByte (.lower8 .rax)) (regByte (.upper8 .ah)) (rowTainted dftRegRax) s' ∧
      ∀ exec', (BinaryForm.registers (.lower8 .rax) (.upper8 .ah)).dst exec' = regByte (.lower8 .rax) →
        (BinaryForm.registers (.lower8 .rax) (.upper8 .ah)).src exec' = regByte (.upper8 .ah) →
        ∃ s'', analyse xchgAlAh exec' s' = .ok ((),s'') ∧ ∀ p, ¬ Scratch p → s''.look p = (rowTainted dftRegRax).look p) ∧
    ∃ s', analyse xaddMemRax (.plain 0) (rowTainted dftRegRax) = .ok ((),s') ∧
      Added 8 (mtags 0) (regByte (.gr64 .rax)) (rowTainted dftRegRax) s' := by
  have xchg : ExchangeForm (.registers (.lower8 .rax) (.upper8 .ah)) xchgAlAh := ⟨⟨rfl,[],rfl,rfl⟩,rfl⟩
  have xadd : ExchangeForm (.store (.gr64 .rax)) xaddMemRax := ⟨⟨8,[],rfl⟩,rfl⟩
  have readable : (BinaryForm.store (.gr64 .rax)).Readable (.plain 0) := by
    show ∀ i < 8, (0 + BitVec.ofNat 64 i).toNat ≤ maxAddr
    decide
  exact ⟨(xchg_swaps_xadd_adds xchg trivial (rowTainted dftRegRax)).1 rfl,
    (xchg_swaps_xadd_adds xadd readable (rowTainted dftRegRax)).2 rfl nofun⟩

end Libdft.Core
