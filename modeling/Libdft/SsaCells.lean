import Libdft.SsaTag
import Libdft.SsaGc
import Libdft.Owners
import Libdft.Run

/-! Reference counts of the single-threaded pool. A count is the number of tags that
refer to the cell, for cells that were handed out; the ring holds cells that no tag
refers to. Concurrent use of the ring is the subject of `SsaThreads`. -/
namespace Libdft.Ssa

variable {backend : Backend} {s next : State} {x dst src : Loc} {c : Cell}

theorem owners_small (tags : Loc → Option Cell) (c : Cell) : owners tags c < neverUsed - 1 := by
  have bound := owners_le tags c
  have places : Fintype.card Loc = tagSlots + 3 := by
    rw [Fintype.card_sum,Fintype.card_fin]
    rfl
  have room : tagSlots + 3 < neverUsed - 1 := by decide
  omega

structure Invariant (s : State) : Prop where
  fits : s.pool.freeSsa.Fits ssaBlk
  unlocked : s.pool.gcLock = 0
  nodup : (s.pool.freeSsa.contents ssaBlk).Nodup
  inside : ∀ c ∈ s.pool.freeSsa.contents ssaBlk, c ∈ s.pool.cells
  unowned : ∀ c ∈ s.pool.freeSsa.contents ssaBlk, ∀ x, s.tags x ≠ some c
  counted : ∀ c ∈ s.handed, s.pool.refCount c = owners s.tags c
  handedInside : ∀ c ∈ s.handed, c ∈ s.pool.cells
  fresh : ∀ c ∈ s.pool.cells, c ∉ s.handed → s.pool.refCount c = neverUsed
  issued : ∀ x c, s.tags x = some c → c ∈ s.handed

namespace Invariant

/-- A free cell has no tag that refers to it. -/
theorem free_unowned (inv : Invariant s) (member : c ∈ s.pool.free) (x : Loc) :
    s.tags x ≠ some c := by
  obtain ⟨inside,count⟩ := Pool.mem_free.mp member
  intro refers
  have counted := inv.counted c (inv.issued x c refers)
  have positive := owners_pos refers
  have small := owners_small s.tags c
  omega

theorem start : Invariant State.start := by
  have null (x : Loc) (c : Cell) : State.start.tags x ≠ some c := by rintro ⟨⟩
  refine ⟨Pool.ssaInit_ring.1,rfl,Pool.ssaInit_nodup,fun c => Pool.ssaInit_inside,fun c _ x => null x c,
    List.forall_mem_nil _,List.forall_mem_nil _,?_,fun x c refers => absurd refers (null x c)⟩
  intro c member _
  exact if_pos (Nat.lt_one_iff.mp (Pool.mem_cells.mp member).1)

theorem refill (inv : Invariant s) (drained : s.pool.freeSsa.head = s.pool.freeSsa.tail) :
    Invariant { s with pool := s.pool.lock.ssaGc } := by
  obtain ⟨collected,keep,_,unlocked⟩ := Pool.lock_collected inv.fits drained
  refine ⟨keep,unlocked,collected.nodup,fun c member => (collected.entry member).1,?_,?_,?_,?_,inv.issued⟩
  · intro c member x refers
    rcases (collected.entry member).2 with free | new
    · exact inv.free_unowned free x refers
    · exact new (inv.handedInside c (inv.issued x c refers))
  · intro c member
    exact (collected.refCount_eq (inv.handedInside c member)).trans (inv.counted c member)
  · exact fun c member => collected.widen (inv.handedInside c member)
  · intro c member unused
    by_cases old : c ∈ s.pool.cells
    · exact (collected.refCount_eq old).trans (inv.fresh c old unused)
    · exact collected.refCount_new old member

theorem refilled (inv : Invariant s) : Invariant { s with pool := s.pool.refilled } := by
  unfold Pool.refilled
  split
  · exact inv.refill ‹_›
  · exact inv

theorem refilled_some (inv : Invariant s) : s.pool.refilled.freeSsa.head ≠ s.pool.refilled.freeSsa.tail := by
  unfold Pool.refilled
  split
  · rename_i drained
    obtain ⟨collected,keep,_⟩ :=
      Pool.lock_collected inv.fits drained
    exact fun same => collected.ne_nil (keep.contents_eq_nil.mpr same)
  · assumption

/-- A cell that is neither referred to nor in the ring. -/
structure Spare (s : State) (c : Cell) : Prop where
  inside : c ∈ s.pool.cells
  unowned : ∀ x, s.tags x ≠ some c
  out : c ∉ s.pool.freeSsa.contents ssaBlk

theorem pop (inv : Invariant s) (some : s.pool.freeSsa.head ≠ s.pool.freeSsa.tail) :
    Invariant { s with pool := { s.pool with freeSsa := s.pool.freeSsa.pop ssaBlk } } ∧
      Spare { s with pool := { s.pool with freeSsa := s.pool.freeSsa.pop ssaBlk } }
        (s.pool.freeSsa.slots s.pool.freeSsa.head) := by
  have split := inv.fits.contents_pop some
  have nodup := List.nodup_cons.mp (split ▸ inv.nodup)
  have later (c : Cell) (member : c ∈ (s.pool.freeSsa.pop ssaBlk).contents ssaBlk) :
      c ∈ s.pool.freeSsa.contents ssaBlk := by
    rw [split]
    exact .tail _ member
  have first : s.pool.freeSsa.slots s.pool.freeSsa.head ∈ s.pool.freeSsa.contents ssaBlk := by
    rw [split]
    exact .head _
  exact ⟨⟨inv.fits.pop,inv.unlocked,nodup.2,fun c member => inv.inside c (later c member),
      fun c member => inv.unowned c (later c member),inv.counted,inv.handedInside,inv.fresh,inv.issued⟩,
    ⟨inv.inside _ first,inv.unowned _ first,nodup.1⟩⟩

theorem refilled_bdd (inv : Invariant s) (member : c ∈ s.pool.cells) :
    s.pool.refilled.bdd c = s.pool.bdd c := by
  unfold Pool.refilled
  split
  · exact (Pool.lock_collected inv.fits ‹_›).1.bdd_eq member
  · rfl

/-- What taking a cell leaves: the cell is spare, and every other one keeps its diagram. -/
structure Taken (s next : State) (c : Cell) : Prop where
  inv : Invariant next
  spare : Spare next c
  tags : next.tags = s.tags
  bdd : ∀ c ∈ s.pool.cells, next.pool.bdd c = s.pool.bdd c

theorem takeVictim (inv : Invariant s) : ∃ next c,
    Returns (fun fuel => s.takeVictim fuel) (next,c) ∧ Taken s next c := by
  obtain ⟨enough,returns⟩ := Pool.victim_returns inv.fits inv.unlocked
  obtain ⟨keep,spare⟩ := inv.refilled.pop inv.refilled_some
  refine ⟨_,_,⟨enough,fun fuel budget => ?_⟩,keep,spare,rfl,fun c member => inv.refilled_bdd member⟩
  have got : s.pool.victim fuel = _ := returns fuel budget
  show (s.pool.victim fuel >>= fun r => pure ({ s with pool := r.1 },r.2)) = _
  rw [got]
  rfl

theorem mint {dst : Loc} {c : Cell} (inv : Invariant s) (spare : Spare s c)
    (vacant : s.tags dst = none) (bdd : Nat) : Invariant (s.mint dst c bdd) := by
  refine ⟨inv.fits,inv.unlocked,inv.nodup,inv.inside,?_,?_,?_,?_,?_⟩
  · intro c' member x refers
    by_cases here : x = dst
    · subst here
      rw [State.mint_tags,Function.update_self] at refers
      exact spare.out (Option.some.inj refers ▸ member)
    · rw [State.mint_tags,Function.update_of_ne here] at refers
      exact inv.unowned c' member x refers
  · intro c' member
    have change := owners_update s.tags dst (some c) c'
    rw [vacant] at change
    show Function.update s.pool.refCount c 1 c' = owners (Function.update s.tags dst (some c)) c'
    by_cases same : c' = c
    · subst same
      have none := owners_eq_zero.mpr spare.unowned
      rw [hits_none,hits_self] at change
      rw [Function.update_self]
      omega
    · have counted := inv.counted c' ((List.mem_cons.mp member).resolve_left same)
      rw [hits_none,hits_other fun eq => same (Option.some.inj eq).symm] at change
      rw [Function.update_of_ne same]
      omega
  · intro c' member
    rcases List.mem_cons.mp member with rfl | member
    · exact spare.inside
    · exact inv.handedInside c' member
  · intro c' member unused
    have other : c' ≠ c := fun same => unused (same ▸ List.mem_cons_self)
    show Function.update s.pool.refCount c 1 c' = _
    rw [Function.update_of_ne other]
    exact inv.fresh c' member fun handed => unused (.tail _ handed)
  · intro x c' refers
    by_cases here : x = dst
    · subst here
      rw [State.mint_tags,Function.update_self] at refers
      exact Option.some.inj refers ▸ List.mem_cons_self
    · rw [State.mint_tags,Function.update_of_ne here] at refers
      exact .tail _ (inv.issued x c' refers)

/-- New counts that are the numbers of tags again, with no tag to a new cell. -/
theorem recount {tags : Loc → Option Cell} {refCount : Cell → Nat} (inv : Invariant s)
    (balanced : ∀ c ∈ s.handed, refCount c = owners tags c)
    (untouched : ∀ c, c ∉ s.handed → refCount c = s.pool.refCount c)
    (held : ∀ x c, tags x = some c → ∃ y, s.tags y = some c) :
    Invariant { s with pool := { s.pool with refCount }, tags } where
  fits := inv.fits
  unlocked := inv.unlocked
  nodup := inv.nodup
  inside := inv.inside
  unowned c member x refers := by
    obtain ⟨y,refers⟩ := held x c refers
    exact inv.unowned c member y refers
  counted := balanced
  handedInside := inv.handedInside
  fresh c member unused := (untouched c unused).trans (inv.fresh c member unused)
  issued x c refers := by
    obtain ⟨y,refers⟩ := held x c refers
    exact inv.issued y c refers

theorem counted_small (inv : Invariant s) (member : c ∈ s.handed) :
    s.pool.refCount c < neverUsed - 1 := by
  rw [inv.counted c member]
  exact owners_small s.tags c

end Invariant

theorem incr_eq {refCount : Cell → Nat} {ref : Option Cell}
    (small : refCount c < neverUsed - 1) : incr refCount ref c = refCount c + hits ref c := by
  have width := Pool.neverUsed_lt
  cases ref with
  | none => rfl
  | some d =>
    by_cases same : d = c
    · subst same
      rw [incr,Function.update_self,hits_self,Nat.mod_eq_of_lt (by omega)]
    · rw [incr,Function.update_of_ne (Ne.symm same),hits_other (fun eq => same (Option.some.inj eq)),
        Nat.add_zero]

theorem decr_eq {refCount : Cell → Nat} {ref : Option Cell} (small : refCount c < neverUsed)
    (positive : ref = some c → 0 < refCount c) :
    decr refCount ref c + hits ref c = refCount c := by
  have width := Pool.neverUsed_lt
  cases ref with
  | none => rfl
  | some d =>
    by_cases same : d = c
    · subst same
      have := positive rfl
      rw [decr,Function.update_self,hits_self,
        show refCount d + 2 ^ 64 - 1 = refCount d - 1 + 2 ^ 64 by omega,Nat.add_mod_right,
        Nat.mod_eq_of_lt (by omega)]
      omega
    · rw [decr,Function.update_of_ne (Ne.symm same),hits_other (fun eq => same (Option.some.inj eq)),
        Nat.add_zero]

theorem incr_other {refCount : Cell → Nat} {ref : Option Cell} (other : ref ≠ some c) :
    incr refCount ref c = refCount c := by
  cases ref with
  | none => rfl
  | some d => rw [incr,Function.update_of_ne fun same => other (congrArg some same.symm)]

theorem decr_other {refCount : Cell → Nat} {ref : Option Cell} (other : ref ≠ some c) :
    decr refCount ref c = refCount c := by
  cases ref with
  | none => rfl
  | some d => rw [decr,Function.update_of_ne fun same => other (congrArg some same.symm)]

namespace Invariant

/-- A count is positive where some tag refers to the cell. -/
theorem counted_pos (inv : Invariant s) (member : c ∈ s.handed) (refers : s.tags x = some c) :
    0 < s.pool.refCount c := by
  rw [inv.counted c member]
  exact owners_pos refers

theorem unissued (inv : Invariant s) (member : c ∉ s.handed) (x : Loc) : s.tags x ≠ some c :=
  fun refers => member (inv.issued x c refers)

theorem held_update {v : Option Cell} (known : ∀ c, v = some c → ∃ y, s.tags y = some c) (dst x : Loc)
    (c : Cell) (refers : Function.update s.tags dst v x = some c) : ∃ y, s.tags y = some c := by
  by_cases here : x = dst
  · rw [here,Function.update_self] at refers
    exact known c refers
  · rw [Function.update_of_ne here] at refers
    exact ⟨x,refers⟩

/-- Tags and counts after `src` was moved to `dst`, whose old reference was dropped. -/
theorem held_move (x dst src : Loc) (c : Cell)
    (refers : Function.update (Function.update s.tags dst (s.tags src)) src none x = some c) :
    ∃ y, s.tags y = some c := by
  by_cases here : x = src
  · rw [here,Function.update_self] at refers
    cases refers
  · rw [Function.update_of_ne here] at refers
    exact held_update (fun c refers => ⟨src,refers⟩) dst x c refers

theorem owners_move (tags : Loc → Option Cell) (dst src : Loc) (c : Cell) :
    owners (Function.update (Function.update tags dst (tags src)) src none) c +
      hits (tags dst) c = owners tags c := by
  have first := owners_update tags dst (tags src) c
  have second := owners_update (Function.update tags dst (tags src)) src none c
  have moved : Function.update tags dst (tags src) src = tags src := by
    by_cases self : src = dst
    · rw [self,Function.update_self]
    · exact Function.update_of_ne self _ _
  rw [moved,hits_none] at second
  omega

theorem copyConstruct (inv : Invariant s) (vacant : s.tags dst = none) :
    Invariant (s.copyConstruct dst src) := by
  show Invariant { s with
    pool := { s.pool with refCount := incr s.pool.refCount (s.tags src) }
    tags := Function.update s.tags dst (s.tags src) }
  refine inv.recount (fun c member => ?_) (fun c unused => ?_)
    (held_update (fun c refers => ⟨src,refers⟩) dst)
  · have change := owners_update s.tags dst (s.tags src) c
    rw [vacant,hits_none,Nat.add_zero] at change
    rw [incr_eq (inv.counted_small member),inv.counted c member]
    exact change.symm
  · exact incr_other (inv.unissued unused src)

theorem destroy (inv : Invariant s) : Invariant (s.destroy x) := by
  show Invariant { s with
    pool := { s.pool with refCount := decr s.pool.refCount (s.tags x) }
    tags := Function.update s.tags x none }
  refine inv.recount (fun c member => ?_) (fun c unused => ?_)
    (held_update (fun c refers => by cases refers) x)
  · have change := owners_update s.tags x none c
    have small := inv.counted_small member
    have drop : decr s.pool.refCount (s.tags x) c + hits (s.tags x) c = s.pool.refCount c :=
      decr_eq (by omega) (inv.counted_pos member)
    rw [hits_none,Nat.add_zero] at change
    rw [inv.counted c member] at drop
    exact Nat.add_right_cancel (drop.trans change.symm)
  · exact decr_other (inv.unissued unused x)

theorem copyAssign (inv : Invariant s) : Invariant (s.copyAssign dst src) := by
  show Invariant { s with
    pool := { s.pool with refCount := decr (incr s.pool.refCount (s.tags src)) (s.tags dst) }
    tags := Function.update s.tags dst (s.tags src) }
  refine inv.recount (fun c member => ?_) (fun c unused => ?_)
    (held_update (fun c refers => ⟨src,refers⟩) dst)
  · have change := owners_update s.tags dst (s.tags src) c
    have small := inv.counted_small member
    have add : incr s.pool.refCount (s.tags src) c = s.pool.refCount c + hits (s.tags src) c :=
      incr_eq small
    have drop : decr (incr s.pool.refCount (s.tags src)) (s.tags dst) c + hits (s.tags dst) c =
        incr s.pool.refCount (s.tags src) c :=
      decr_eq (by rw [add,hits]; split <;> omega)
        (fun refers => by have := inv.counted_pos member refers; omega)
    rw [add,inv.counted c member] at drop
    exact Nat.add_right_cancel (drop.trans change.symm)
  · rw [decr_other (inv.unissued unused dst)]
    exact incr_other (inv.unissued unused src)

theorem moveConstruct (inv : Invariant s) (vacant : s.tags dst = none) :
    Invariant (s.moveConstruct dst src) := by
  show Invariant { s with
    pool := { s.pool with refCount := s.pool.refCount }
    tags := Function.update (Function.update s.tags dst (s.tags src)) src none }
  refine inv.recount (fun c member => ?_) (fun _ _ => rfl) (fun x c => held_move x dst src c)
  have change := owners_move s.tags dst src c
  rw [vacant,hits_none,Nat.add_zero] at change
  exact (inv.counted c member).trans change.symm

theorem moveAssign (inv : Invariant s) : Invariant (s.moveAssign dst src) := by
  show Invariant { s with
    pool := { s.pool with refCount := decr s.pool.refCount (s.tags dst) }
    tags := Function.update (Function.update s.tags dst (s.tags src)) src none }
  refine inv.recount (fun c member => ?_) (fun c unused => ?_) (fun x c => held_move x dst src c)
  · have change := owners_move s.tags dst src c
    have small := inv.counted_small member
    have drop : decr s.pool.refCount (s.tags dst) c + hits (s.tags dst) c = s.pool.refCount c :=
      decr_eq (by omega) (inv.counted_pos member)
    rw [inv.counted c member] at drop
    exact Nat.add_right_cancel (drop.trans change.symm)
  · exact decr_other (inv.unissued unused dst)

theorem remember {lhs rhs value : Loc} (inv : Invariant s) : Invariant (s.remember lhs rhs value) :=
  inv.copyAssign.copyAssign.copyAssign

theorem remember_tags (s : State) (lhs rhs value : Loc) (x : Obj) :
    (s.remember lhs rhs value).tags (.inl x) = s.tags (.inl x) := by
  simp [State.remember,State.copyAssign,State.setTag,State.setCounts]

end Invariant

/-- An allocation returns a tag on a cell it has just taken. -/
theorem ssaTagAlloc_spec (backend : Backend) (dst : Loc) (offset : Nat) (inv : Invariant s) :
    ∃ s' c, Invariant.Taken s s' c ∧ Returns (fun fuel => s.ssaTagAlloc backend fuel dst offset)
      (s'.mint dst c (backend.cube (offsetArray offset))) := by
  obtain ⟨s',c,⟨enough,returns⟩,taken⟩ := inv.takeVictim
  refine ⟨s',c,taken,enough,fun fuel budget => ?_⟩
  have got : s.takeVictim fuel = _ := returns fuel budget
  show (s.takeVictim fuel >>= fun r => pure (r.1.mint dst r.2 (backend.cube _))) = _
  rw [got]
  rfl

/-- The ways in which a combination answers. -/
inductive Combined (backend : Backend) (s : State) (dst lhs rhs : Loc) : State → Prop where
  | nullLeft : s.tags lhs = none → Combined backend s dst lhs rhs (s.copyConstruct dst rhs)
  | nullRight : s.tags rhs = none → Combined backend s dst lhs rhs (s.copyConstruct dst lhs)
  | equal : s.tags lhs ≠ none → s.tags rhs ≠ none → s.same (s.tags lhs) (s.tags rhs) →
      Combined backend s dst lhs rhs (s.copyConstruct dst lhs)
  | hit : s.tags lhs ≠ none → s.tags rhs ≠ none → s.same (s.tags (.inr .l)) (s.tags lhs) →
      s.same (s.tags (.inr .r)) (s.tags rhs) →
      Combined backend s dst lhs rhs (s.copyConstruct dst (.inr .v))
  | left : s.tags lhs ≠ none → s.tags rhs ≠ none →
      backend.union (s.bddOf lhs) (s.bddOf rhs) = s.bddOf lhs →
      Combined backend s dst lhs rhs ((s.remember lhs rhs lhs).copyConstruct dst lhs)
  | right : s.tags lhs ≠ none → s.tags rhs ≠ none →
      backend.union (s.bddOf lhs) (s.bddOf rhs) = s.bddOf rhs →
      Combined backend s dst lhs rhs ((s.remember lhs rhs rhs).copyConstruct dst rhs)
  | fresh : s.tags lhs ≠ none → s.tags rhs ≠ none → Invariant.Taken s s' victim →
      Combined backend s dst lhs rhs
        ((s'.mint dst victim (backend.union (s.bddOf lhs) (s.bddOf rhs))).remember lhs rhs dst)

/-- A combination returns, in one of these ways. -/
theorem ssaTagCombine_spec (backend : Backend) (dst lhs rhs : Loc) (inv : Invariant s) :
    ∃ next, Combined backend s dst lhs rhs next ∧
      Returns (fun fuel => s.ssaTagCombine backend fuel dst lhs rhs) next := by
  have settled {next : State} {call : Nat → Outcome State} (eq : ∀ fuel, call fuel = .returned next) :
      Returns call next := ⟨0,fun fuel _ => eq fuel⟩
  unfold State.ssaTagCombine
  by_cases nullL : s.tags lhs = none
  · exact ⟨_,.nullLeft nullL,settled fun _ => by rw [if_pos nullL]; rfl⟩
  by_cases nullR : s.tags rhs = none
  · exact ⟨_,.nullRight nullR,settled fun _ => by rw [if_neg nullL,if_pos (.inl nullR)]; rfl⟩
  by_cases equal : s.same (s.tags lhs) (s.tags rhs)
  · exact ⟨_,.equal nullL nullR equal,settled fun _ => by
      rw [if_neg nullL,if_pos (.inr equal)]; rfl⟩
  have apart : ¬ (s.tags rhs = none ∨ s.same (s.tags lhs) (s.tags rhs) = true) :=
    fun h => h.elim nullR equal
  by_cases hit : s.same (s.tags (.inr .l)) (s.tags lhs) ∧ s.same (s.tags (.inr .r)) (s.tags rhs)
  · exact ⟨_,.hit nullL nullR hit.1 hit.2,settled fun _ => by
      rw [if_neg nullL,if_neg apart,if_pos hit]; rfl⟩
  by_cases left : backend.union (s.bddOf lhs) (s.bddOf rhs) = s.bddOf lhs
  · exact ⟨_,.left nullL nullR left,settled fun _ => by
      simp only [if_neg nullL,if_neg apart,if_neg hit,if_pos left]; rfl⟩
  by_cases right : backend.union (s.bddOf lhs) (s.bddOf rhs) = s.bddOf rhs
  · exact ⟨_,.right nullL nullR right,settled fun _ => by
      simp only [if_neg nullL,if_neg apart,if_neg hit,if_neg left,if_pos right]; rfl⟩
  obtain ⟨s',c,⟨enough,returns⟩,taken⟩ := inv.takeVictim
  refine ⟨_,.fresh nullL nullR taken,enough,fun fuel budget => ?_⟩
  have got : s.takeVictim fuel = _ := returns fuel budget
  simp only [if_neg nullL,if_neg apart,if_neg hit,if_neg left,if_neg right]
  rw [got]
  rfl

theorem Invariant.Taken.mint (taken : Invariant.Taken s next c) (vacant : s.tags dst = none)
    (bdd : Nat) : Invariant (next.mint dst c bdd) :=
  taken.inv.mint taken.spare (taken.tags ▸ vacant) bdd

theorem Combined.invariant {d : Obj} {lhs rhs : Loc} (combined : Combined backend s (.inl d) lhs rhs next)
    (inv : Invariant s) (vacant : s.tags (.inl d) = none) : Invariant next := by
  cases combined with
  | nullLeft | nullRight | equal | hit => exact inv.copyConstruct vacant
  | left | right => exact inv.remember.copyConstruct ((Invariant.remember_tags ..).trans vacant)
  | fresh _ _ taken => exact (taken.mint vacant _).remember

theorem step_invariant {op : Op} (inv : Invariant s) (step : Step backend s op next) :
    Invariant next := by
  cases step with
  | alloc vacant returns =>
    obtain ⟨s',c,taken,returns'⟩ := ssaTagAlloc_spec backend _ _ inv
    exact returns.unique returns' ▸ taken.mint vacant _
  | combine vacant returns =>
    obtain ⟨next',combined,returns'⟩ := ssaTagCombine_spec backend _ _ _ inv
    exact returns.unique returns' ▸ combined.invariant inv vacant
  | copyConstruct vacant => exact inv.copyConstruct vacant
  | moveConstruct vacant => exact inv.moveConstruct vacant
  | copyAssign => exact inv.copyAssign
  | moveAssign => exact inv.moveAssign
  | destroy => exact inv.destroy

theorem run_invariant {ops : List Op} (run : Run (Step backend) State.start ops s) : Invariant s :=
  run.invariant Invariant (fun _ _ _ inv step => step_invariant inv step) .start

/-- The pool as its users may rely on it. -/
structure PoolSafe (backend : Backend) (s : State) : Prop where
  counted : ∀ c ∈ s.handed, s.pool.refCount c = owners s.tags c
  distinct : (s.pool.freeSsa.contents ssaBlk).Nodup
  unowned : ∀ c ∈ s.pool.freeSsa.contents ssaBlk, ∀ x, s.tags x ≠ some c
  accounted : ∀ c ∈ s.pool.cells, 0 < owners s.tags c ∨ c ∈ s.pool.freeSsa.contents ssaBlk ∨
    s.pool.refCount c = 0 ∨ s.pool.refCount c = neverUsed
  capacity : s.pool.freeSsa.head = s.pool.freeSsa.tail → ∀ seen,
    (s.pool.gcScan seen s.pool.gcStart).1.ring.contents ssaBlk = (seen.filter s.pool.isFree).take (ssaBlk - 1)
  counter : s.pool.freeSsa.head = s.pool.freeSsa.tail → ∀ seen rest, s.pool.cells = seen ++ rest →
    (s.pool.gcScan seen s.pool.gcStart).2 = false →
    0 < (s.pool.gcScan seen s.pool.gcStart).1.emptyCount
  collected : s.pool.freeSsa.head = s.pool.freeSsa.tail →
    Pool.Collected s.pool s.pool.lock.ssaGc ∧ s.pool.lock.ssaGc.freeSsa.contents ssaBlk ≠ []
  progress : ∀ dst,
    (∀ offset, ∃ next, Returns (fun fuel => s.ssaTagAlloc backend fuel (.inl dst) offset) next) ∧
    ∀ lhs rhs, ∃ next,
      Returns (fun fuel => s.ssaTagCombine backend fuel (.inl dst) (.inl lhs) (.inl rhs)) next

/-- In every state a single thread can reach, counts are numbers of tags, the ring holds
distinct unreferenced cells, no cell is lost, and a collection makes room. -/
theorem pool_safe {ops : List Op} (run : Run (Step backend) State.start ops s) :
    PoolSafe backend s := by
  have inv := run_invariant run
  constructor
  case counted => exact inv.counted
  case distinct => exact inv.nodup
  case unowned => exact inv.unowned
  case accounted =>
    intro c member
    by_cases used : c ∈ s.handed
    · rw [inv.counted c used]
      omega
    · exact .inr (.inr (.inr (inv.fresh c member used)))
  case capacity => exact fun drained seen => (Pool.gcScan_ring inv.fits drained seen).2.1
  case counter =>
    intro drained seen _ _ going
    exact Pool.gcScan_positive inv.fits drained seen going
  case collected =>
    intro drained
    have collected := (Pool.lock_collected inv.fits drained).1
    exact ⟨collected,collected.ne_nil⟩
  case progress =>
    intro dst
    refine ⟨fun offset => ?_,fun lhs rhs => ?_⟩
    · obtain ⟨_,_,_,returns⟩ := ssaTagAlloc_spec backend (.inl dst) offset inv
      exact ⟨_,returns⟩
    · obtain ⟨next,_,returns⟩ := ssaTagCombine_spec backend (.inl dst) (.inl lhs) (.inl rhs) inv
      exact ⟨next,returns⟩

/-- An allocation whose cell is shared, and whose first tag then goes. -/
theorem pool_safe_shared :
    let backend : Backend := ⟨fun _ => 2,fun a _ => a,fun _ => []⟩
    ∃ s, Run (Step backend) State.start [.alloc 0 5,.copyAssign 1 0,.destroy 0] s ∧
      PoolSafe backend s := by
  intro backend
  have vacant : State.start.tags (.inl 0) = none := rfl
  obtain ⟨_,_,_,returns⟩ := ssaTagAlloc_spec backend (.inl 0) 5 .start
  have run : Run (Step backend) State.start [.alloc 0 5,.copyAssign 1 0,.destroy 0] _ :=
    .cons (.alloc vacant returns) (.cons .copyAssign (.cons .destroy .nil))
  exact ⟨_,run,pool_safe run⟩

end Libdft.Ssa
