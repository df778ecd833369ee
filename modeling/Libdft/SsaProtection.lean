import Libdft.SsaCells

/-! Which `bdd` fields `sylvan_protect` knows in the single-threaded pool. A cell is
registered when it is filled and stays so until a collection puts it into the ring.
The diagrams that the tasks return are assumed not to be `mtbdd_false`. -/
namespace Libdft.Ssa

variable {backend : Backend} {s next : State} {p q : Pool} {x dst lhs rhs : Loc} {c : Cell}

namespace Pool

theorem gcEnqueue_registered (g : GcScan) (d : Cell) : (p.gcEnqueue g d).registered c =
    if c = d ∧ p.refCount c = 0 ∧ p.bdd c ≠ 0 then g.registered c - 1 else g.registered c := by
  unfold gcEnqueue
  dsimp only
  by_cases same : c = d
  · subst same
    by_cases used : p.refCount c = 0 ∧ p.bdd c ≠ 0
    · rw [if_pos used,if_pos ⟨rfl,used⟩,Function.update_self]
    · rw [if_neg used,if_neg fun h => used h.2]
  · have other : ¬ (c = d ∧ p.refCount c = 0 ∧ p.bdd c ≠ 0) := fun h => same h.1
    rw [if_neg other]
    split
    · exact Function.update_of_ne same _ _
    · rfl

/-- A scan takes one registration from every used cell that it puts into the ring. -/
theorem gcScan_registered (cs : List Cell) (nodup : cs.Nodup) (g : GcScan) (pos : 0 < g.emptyCount)
    (small : g.emptyCount < ssaBlk) :
    (p.gcScan cs g).1.registered c =
      if c ∈ (cs.filter p.isFree).take g.emptyCount ∧ p.refCount c = 0 ∧ p.bdd c ≠ 0
      then g.registered c - 1 else g.registered c := by
  induction cs generalizing g with
  | nil => simp [gcScan]
  | cons d cs ih =>
    obtain ⟨new,nodup⟩ := List.nodup_cons.mp nodup
    unfold gcScan
    by_cases isFree : p.isFree d = true
    · have count := p.gcEnqueue_emptyCount (c := d) pos small
      obtain ⟨k,room⟩ : ∃ k, g.emptyCount = k + 1 := ⟨g.emptyCount - 1,by omega⟩
      have now := p.gcEnqueue_registered (c := c) g d
      rw [if_pos isFree,List.filter_cons_of_pos isFree,room,List.take_succ_cons]
      by_cases full : (p.gcEnqueue g d).emptyCount = 0
      · have none : k = 0 := by omega
        simpa [full,none] using now
      · have left : (p.gcEnqueue g d).emptyCount = k := by omega
        rw [if_neg full,ih nodup _ (by omega) (by omega),left,now]
        by_cases same : c = d
        · subst same
          have out : c ∉ (cs.filter p.isFree).take k := fun member =>
            new (List.mem_of_mem_filter (List.mem_of_mem_take member))
          simp [out]
        · simp [same]
    · rw [if_neg isFree,List.filter_cons_of_neg isFree]
      exact ih nodup g pos small

theorem lock_registered (fits : p.freeSsa.Fits ssaBlk) (drained : p.freeSsa.head = p.freeSsa.tail) :
    p.lock.ssaGc.registered c =
      if c ∈ p.free.take (ssaBlk - 1) ∧ p.refCount c = 0 ∧ p.bdd c ≠ 0
      then p.registered c - 1 else p.registered c := by
  have room := threshold_room
  have start := gcStart_room fits drained
  have scanned := p.gcScan_registered (c := c) p.cells nodup_cells p.gcStart (by omega) (by omega)
  have kept : p.lock.ssaGc.registered c = (p.lock.gcScan p.lock.cells p.lock.gcStart).1.registered c := by
    unfold ssaGc
    dsimp only
    split <;> rfl
  have unlocked : ∀ cs g, p.lock.gcScan cs g = p.gcScan cs g := by
    intro cs
    induction cs with
    | nil => intro g; rfl
    | cons d cs ih => intro g; simp only [gcScan,ih]; rfl
  rw [kept,unlocked]
  rw [start] at scanned
  exact scanned

/-- Of the cells there were, the ring has those that the scan found room for. -/
theorem Collected.mem_ring (collected : Collected p q) (old : c ∈ p.cells) :
    c ∈ q.freeSsa.contents ssaBlk ↔ c ∈ p.free.take (ssaBlk - 1) := by
  cases collected with
  | reused entries => rw [entries]
  | grown entries less =>
    have all : p.free.take (ssaBlk - 1) = p.free := List.take_of_length_le (by omega)
    have new : c ∉ (List.range (ssaBlk - 1 - p.free.length)).map (Cell.mk p.blocks) := by
      rintro member
      obtain ⟨_,_,rfl⟩ := List.mem_map.mp member
      exact old_block old rfl
    rw [entries,all,List.mem_append]
    exact or_iff_left new

end Pool

/-- Between operations: every cell that was handed out and is not back in the ring is
registered once, and no other cell is. -/
structure Protected (s : State) : Prop where
  out : ∀ c ∈ s.handed, c ∉ s.pool.freeSsa.contents ssaBlk → s.pool.registered c = 1
  ring : ∀ c ∈ s.pool.freeSsa.contents ssaBlk, s.pool.registered c = 0
  unused : ∀ c, c ∉ s.handed → s.pool.registered c = 0
  filled : ∀ c ∈ s.handed, s.pool.bdd c ≠ 0

/-- A step that moves references only. -/
structure Quiet (s next : State) : Prop where
  freeSsa : next.pool.freeSsa = s.pool.freeSsa
  bdd : next.pool.bdd = s.pool.bdd
  registered : next.pool.registered = s.pool.registered
  handed : next.handed = s.handed

namespace State

theorem copyConstruct_quiet (s : State) (dst src : Loc) : Quiet s (s.copyConstruct dst src) :=
  ⟨rfl,rfl,rfl,rfl⟩

theorem moveConstruct_quiet (s : State) (dst src : Loc) : Quiet s (s.moveConstruct dst src) :=
  ⟨rfl,rfl,rfl,rfl⟩

theorem destroy_quiet (s : State) (x : Loc) : Quiet s (s.destroy x) := ⟨rfl,rfl,rfl,rfl⟩

theorem copyAssign_quiet (s : State) (dst src : Loc) : Quiet s (s.copyAssign dst src) :=
  ⟨rfl,rfl,rfl,rfl⟩

theorem moveAssign_quiet (s : State) (dst src : Loc) : Quiet s (s.moveAssign dst src) :=
  ⟨rfl,rfl,rfl,rfl⟩

theorem remember_quiet (s : State) (lhs rhs value : Loc) : Quiet s (s.remember lhs rhs value) :=
  ⟨rfl,rfl,rfl,rfl⟩

/-- The state with the ring refilled and its first cell taken. -/
def popped (s : State) : State :=
  { s with pool := { s.pool.refilled with freeSsa := s.pool.refilled.freeSsa.pop ssaBlk } }

def nextCell (s : State) : Cell := s.pool.refilled.freeSsa.slots s.pool.refilled.freeSsa.head

end State

theorem Quiet.trans {middle : State} (first : Quiet s middle) (second : Quiet middle next) : Quiet s next :=
  ⟨second.freeSsa.trans first.freeSsa,second.bdd.trans first.bdd,second.registered.trans first.registered,
    second.handed.trans first.handed⟩

theorem Invariant.takeVictim_returns (inv : Invariant s) :
    Returns (fun fuel => s.takeVictim fuel) (s.popped,s.nextCell) := by
  obtain ⟨enough,returns⟩ := Pool.victim_returns inv.fits inv.unlocked
  refine ⟨enough,fun fuel budget => ?_⟩
  have got : s.pool.victim fuel = _ := returns fuel budget
  show (s.pool.victim fuel >>= fun r => pure ({ s with pool := r.1 },r.2)) = _
  rw [got]
  rfl

theorem ssaTagAlloc_next (inv : Invariant s) {offset : Nat}
    (returns : Returns (fun fuel => s.ssaTagAlloc backend fuel dst offset) next) :
    next = s.popped.mint dst s.nextCell (backend.cube (offsetArray offset)) := by
  obtain ⟨enough,got⟩ := inv.takeVictim_returns
  refine returns.unique ⟨enough,fun fuel budget => ?_⟩
  have got : s.takeVictim fuel = _ := got fuel budget
  show (s.takeVictim fuel >>= fun r => pure (r.1.mint dst r.2 (backend.cube _))) = _
  rw [got]
  rfl

/-- A combination moves references only, or fills the next cell with a union of two diagrams. -/
theorem ssaTagCombine_next (inv : Invariant s)
    (returns : Returns (fun fuel => s.ssaTagCombine backend fuel dst lhs rhs) next) :
    Quiet s next ∨ s.tags lhs ≠ none ∧ s.tags rhs ≠ none ∧
      next = (s.popped.mint dst s.nextCell
        (backend.union (s.bddOf lhs) (s.bddOf rhs))).remember lhs rhs dst := by
  obtain ⟨enough,returns⟩ := returns
  obtain ⟨enough',got⟩ := inv.takeVictim_returns
  have returned := returns (max enough enough') (le_max_left _ _)
  have got : s.takeVictim (max enough enough') = _ := got _ (le_max_right _ _)
  have settled {a b : State} (eq : (pure a : Outcome State) = .returned b) : b = a := by
    cases eq
    rfl
  dsimp only at returned
  unfold State.ssaTagCombine at returned
  split at returned
  next => exact .inl (settled returned ▸ s.copyConstruct_quiet dst rhs)
  next nullL =>
  split at returned
  next => exact .inl (settled returned ▸ s.copyConstruct_quiet dst lhs)
  next apart =>
  split at returned
  next => exact .inl (settled returned ▸ s.copyConstruct_quiet dst (.inr .v))
  next =>
  dsimp only at returned
  split at returned
  next => exact .inl (settled returned ▸ (s.remember_quiet lhs rhs lhs).trans (State.copyConstruct_quiet _ dst lhs))
  next =>
  split at returned
  next => exact .inl (settled returned ▸ (s.remember_quiet lhs rhs rhs).trans (State.copyConstruct_quiet _ dst rhs))
  next =>
    rw [got] at returned
    exact .inr ⟨nullL,fun nullR => apart (.inl nullR),settled returned⟩

namespace Protected

theorem quiet (prot : Protected s) (step : Quiet s next) : Protected next := by
  obtain ⟨freeSsa,bdd,registered,handed⟩ := step
  constructor
  · rw [handed,freeSsa,registered]
    exact prot.out
  · rw [freeSsa,registered]
    exact prot.ring
  · rw [handed,registered]
    exact prot.unused
  · rw [handed,bdd]
    exact prot.filled

theorem start : Protected State.start := by
  have none (c : Cell) : State.start.pool.registered c = 0 := by
    unfold State.start Pool.ssaInit Pool.addSsaBlk Pool.empty
    rfl
  exact ⟨List.forall_mem_nil _,fun c _ => none c,fun c _ => none c,List.forall_mem_nil _⟩

/-- While the ring is empty every used cell is registered. -/
theorem drained_registered (inv : Invariant s) (prot : Protected s)
    (drained : s.pool.freeSsa.head = s.pool.freeSsa.tail) (member : c ∈ s.handed) :
    s.pool.registered c = 1 := by
  refine prot.out c member ?_
  rw [inv.fits.contents_eq_nil.mpr drained]
  exact List.not_mem_nil

theorem used_of_zero (inv : Invariant s) (member : c ∈ s.pool.cells) (zero : s.pool.refCount c = 0) :
    c ∈ s.handed := by
  by_contra unused
  have width : neverUsed ≠ 0 := by decide
  exact width ((inv.fresh c member unused).symm.trans zero)

theorem refill (inv : Invariant s) (prot : Protected s)
    (drained : s.pool.freeSsa.head = s.pool.freeSsa.tail) :
    Protected { s with pool := s.pool.lock.ssaGc } := by
  obtain ⟨collected,_⟩ := Pool.lock_collected inv.fits drained
  have after (c : Cell) := Pool.lock_registered (c := c) inv.fits drained
  constructor
  · intro c member outside
    have old := inv.handedInside c member
    have left : c ∉ s.pool.free.take (ssaBlk - 1) := fun taken => outside ((collected.mem_ring old).mpr taken)
    refine (after c).trans ?_
    rw [if_neg fun h => left h.1]
    exact prot.drained_registered inv drained member
  · intro c member
    refine (after c).trans ?_
    by_cases used : c ∈ s.handed
    · have old := inv.handedInside c used
      have taken := (collected.mem_ring old).mp member
      have small := inv.counted_small used
      have zero : s.pool.refCount c = 0 := by
        rcases (Pool.mem_free.mp (List.mem_of_mem_take taken)).2 with zero | never
        · exact zero
        · omega
      rw [if_pos ⟨taken,zero,prot.filled c used⟩,prot.drained_registered inv drained used]
    · rw [prot.unused c used]
      simp
  · intro c unused
    refine (after c).trans ?_
    rw [prot.unused c unused]
    simp
  · intro c member
    exact (collected.bdd_eq (inv.handedInside c member)).symm ▸ prot.filled c member

theorem refilled (inv : Invariant s) (prot : Protected s) : Protected { s with pool := s.pool.refilled } := by
  unfold Pool.refilled
  split
  · exact prot.refill inv ‹_›
  · exact prot

/-- The cell that is taken was not registered, and is so once it is filled. -/
theorem mint (inv : Invariant s) (prot : Protected s) {bdd : Nat} (nonzero : bdd ≠ 0) :
    Protected (s.popped.mint dst s.nextCell bdd) := by
  have full := prot.refilled inv
  have split : s.pool.refilled.freeSsa.contents ssaBlk =
      s.nextCell :: (s.pool.refilled.freeSsa.pop ssaBlk).contents ssaBlk :=
    inv.refilled.fits.contents_pop inv.refilled_some
  have first : s.nextCell ∉ (s.pool.refilled.freeSsa.pop ssaBlk).contents ssaBlk :=
    (List.nodup_cons.mp (split ▸ inv.refilled.nodup)).1
  have blank : s.pool.refilled.registered s.nextCell = 0 := by
    refine full.ring s.nextCell ?_
    show s.nextCell ∈ s.pool.refilled.freeSsa.contents ssaBlk
    rw [split]
    exact .head _
  have other {c : Cell} (h : c ≠ s.nextCell) : (s.popped.mint dst s.nextCell bdd).pool.registered c =
      s.pool.refilled.registered c := Function.update_of_ne h _ _
  constructor
  · intro c member outside
    by_cases same : c = s.nextCell
    · subst same
      show Function.update s.pool.refilled.registered s.nextCell (_ + 1) s.nextCell = 1
      rw [Function.update_self]
      exact congrArg (· + 1) blank
    · rw [other same]
      refine full.out c ((List.mem_cons.mp member).resolve_left same) ?_
      show c ∉ s.pool.refilled.freeSsa.contents ssaBlk
      rw [split]
      exact fun member => (List.mem_cons.mp member).elim same outside
  · intro c member
    have apart : c ≠ s.nextCell := fun same => first (same ▸ member)
    rw [other apart]
    refine full.ring c ?_
    show c ∈ s.pool.refilled.freeSsa.contents ssaBlk
    rw [split]
    exact .tail _ member
  · intro c unused
    have apart : c ≠ s.nextCell := fun same => unused (same ▸ List.mem_cons_self)
    exact (other apart).trans (full.unused c fun member => unused (.tail _ member))
  · intro c member
    show Function.update s.pool.refilled.bdd s.nextCell bdd c ≠ 0
    by_cases same : c = s.nextCell
    · rw [same,Function.update_self]
      exact nonzero
    · rw [Function.update_of_ne same]
      exact full.filled c ((List.mem_cons.mp member).resolve_left same)

end Protected

/-- The tasks never answer `mtbdd_false` on arguments that are not. -/
structure NonFalse (backend : Backend) : Prop where
  cube : ∀ offset, backend.cube (offsetArray offset) ≠ 0
  union : ∀ a b, a ≠ 0 → b ≠ 0 → backend.union a b ≠ 0

theorem bddOf_ne_zero (inv : Invariant s) (prot : Protected s) (some : s.tags x ≠ none) : s.bddOf x ≠ 0 := by
  obtain ⟨c,refers⟩ := Option.ne_none_iff_exists'.mp some
  unfold State.bddOf
  rw [refers]
  exact prot.filled c (inv.issued x c refers)

theorem step_protected {op : Op} (nonFalse : NonFalse backend) (inv : Invariant s) (prot : Protected s)
    (step : Step backend s op next) : Protected next := by
  cases step with
  | alloc _ returns => exact ssaTagAlloc_next inv returns ▸ prot.mint inv (nonFalse.cube _)
  | combine _ returns =>
    rcases ssaTagCombine_next inv returns with quiet | ⟨left,right,rfl⟩
    · exact prot.quiet quiet
    · have nonzero := nonFalse.union _ _ (bddOf_ne_zero inv prot left) (bddOf_ne_zero inv prot right)
      exact (prot.mint inv nonzero).quiet (State.remember_quiet ..)
  | copyConstruct => exact prot.quiet (State.copyConstruct_quiet ..)
  | moveConstruct => exact prot.quiet (State.moveConstruct_quiet ..)
  | copyAssign => exact prot.quiet (State.copyAssign_quiet ..)
  | moveAssign => exact prot.quiet (State.moveAssign_quiet ..)
  | destroy => exact prot.quiet (State.destroy_quiet ..)

theorem run_protected {ops : List Op} (nonFalse : NonFalse backend)
    (run : Run (Step backend) State.start ops s) : Invariant s ∧ Protected s :=
  run.invariant (fun s => Invariant s ∧ Protected s)
    (fun _ _ _ ⟨inv,prot⟩ step => ⟨step_invariant inv step,step_protected nonFalse inv prot step⟩)
    ⟨.start,.start⟩

/-- The registrations as Sylvan's own collection relies on them. -/
structure Balanced (s : State) : Prop where
  referenced : ∀ x c, s.tags x = some c → s.pool.registered c = 1
  dead : ∀ c ∈ s.pool.cells, s.pool.refCount c = 0 → c ∉ s.pool.freeSsa.contents ssaBlk →
    s.pool.registered c = 1
  free : ∀ c ∈ s.pool.freeSsa.contents ssaBlk, s.pool.registered c = 0
  neverUsed : ∀ c, c ∉ s.handed → s.pool.registered c = 0
  /-- The collection that starts here reaches `mtbdd_unprotect` with registered cells only. -/
  unprotect : s.pool.freeSsa.head = s.pool.freeSsa.tail → ∀ seen c rest,
    s.pool.cells = seen ++ c :: rest → (s.pool.gcScan seen s.pool.gcStart).2 = false →
    s.pool.refCount c = 0 → s.pool.bdd c ≠ 0 →
    (s.pool.gcScan seen s.pool.gcStart).1.registered c = 1

/-- In every state a single thread can reach, exactly the cells that are referenced or
dead and not yet back in the ring are registered, once each. -/
theorem protection_balanced {ops : List Op} (nonFalse : NonFalse backend)
    (run : Run (Step backend) State.start ops s) : Balanced s := by
  obtain ⟨inv,prot⟩ := run_protected nonFalse run
  constructor
  case referenced =>
    intro x c refers
    exact prot.out c (inv.issued x c refers) fun member => inv.unowned c member x refers
  case dead =>
    intro c member zero outside
    exact prot.out c (Protected.used_of_zero inv member zero) outside
  case free => exact prot.ring
  case neverUsed => exact prot.unused
  case unprotect =>
    intro drained seen c rest order _ zero _
    have room := Pool.threshold_room
    have full := Pool.gcStart_room inv.fits drained
    have nodup : (seen ++ c :: rest).Nodup := order ▸ Pool.nodup_cells
    have member : c ∈ s.pool.cells := by simp [order]
    have unseen : c ∉ seen := fun h => (List.nodup_append.mp nodup).2.2 c h c (.head _) rfl
    rw [Pool.gcScan_registered seen (List.nodup_append.mp nodup).1 _ (by omega) (by omega),
      if_neg fun h => unseen (List.mem_of_mem_filter (List.mem_of_mem_take h.1))]
    exact prot.drained_registered inv drained (Protected.used_of_zero inv member zero)

/-- Two tags are allocated and one of them goes; its cell stays registered. -/
theorem protection_balanced_dead :
    let backend : Backend := ⟨fun bits => if bits ⟨0,by decide⟩ then 3 else 2,fun a b => a + b,fun _ => []⟩
    ∃ s, Run (Step backend) State.start [.alloc 0 5,.alloc 1 6,.destroy 0] s ∧ Balanced s := by
  intro backend
  have nonFalse : NonFalse backend := ⟨fun _ => by dsimp only [backend]; split <;> decide,fun a b left _ => by
    show a + b ≠ 0
    omega⟩
  have vacant : State.start.tags (.inl 0) = none := rfl
  obtain ⟨first,c,taken,returns⟩ := ssaTagAlloc_spec backend (.inl 0) 5 .start
  have apart : (Sum.inl 1 : Loc) ≠ .inl 0 := by decide
  have vacant' : (first.mint (.inl 0) c (backend.cube (offsetArray 5))).tags (.inl 1) = none := by
    rw [State.mint_tags,Function.update_of_ne apart,taken.tags]
    rfl
  obtain ⟨_,_,_,returns'⟩ := ssaTagAlloc_spec backend (.inl 1) 6 (taken.mint vacant _)
  have run : Run (Step backend) State.start [.alloc 0 5,.alloc 1 6,.destroy 0] _ :=
    .cons (.alloc vacant returns) (.cons (.alloc vacant' returns') (.cons .destroy .nil))
  exact ⟨_,run,protection_balanced nonFalse run⟩

end Libdft.Ssa
