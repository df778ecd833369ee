import Libdft.SsaThreads
import Libdft.SsaGc

/-! What orderly interleavings of the allocating threads keep, and an interleaving from
the start that is not orderly and hands one cell to two threads. -/
namespace Libdft.Ssa.Threads

/-- A cell in neither the ring nor a thread's hands. -/
structure Spare (s : State) (c : Cell) : Prop where
  inside : c ∈ s.pool.cells
  out : c ∉ s.free
  unheld : ∀ t, (t,c) ∉ s.held

structure Invariant (s : State) : Prop where
  fits : s.pool.freeSsa.Fits ssaBlk
  distinct : s.free.Nodup
  inside : ∀ c ∈ s.free, c ∈ s.pool.cells
  unheld : ∀ c ∈ s.free, ∀ t, (t,c) ∉ s.held
  once : (s.held.map Prod.snd).Nodup
  heldInside : ∀ t c, (t,c) ∈ s.held → c ∈ s.pool.cells
  marked : ∀ t c, (t,c) ∈ s.held → s.pool.refCount c = 1 ∨ s.pc t = .mark c
  marking : ∀ t c, s.pc t = .mark c → (t,c) ∈ s.held
  taken : ∀ t idx, s.pc t = .readSlot idx → Spare s (s.slot idx)
  apart : ∀ t u i j, t ≠ u → s.pc t = .readSlot i → s.pc u = .readSlot j → s.slot i ≠ s.slot j

namespace Invariant

variable {s : State} {t : Tid} {pc : Pc}

theorem goto_self : (s.goto t pc).pc t = pc := Function.update_self ..

theorem goto_other {u : Tid} (other : u ≠ t) : (s.goto t pc).pc u = s.pc u := Function.update_of_ne other ..

/-- A thread found at another place than the one just reached was there before. -/
theorem goto_before {u : Tid} {at' : Pc} (found : (s.goto t pc).pc u = at') (differ : pc ≠ at') :
    u ≠ t ∧ s.pc u = at' := by
  have other : u ≠ t := by
    rintro rfl
    exact differ (goto_self.symm.trans found)
  exact ⟨other,(goto_other other).symm.trans found⟩

/-- A thread that was at another place than the one just left is still there. -/
theorem goto_after {u : Tid} {at' : Pc} (found : s.pc u = at') (differ : s.pc t ≠ at') :
    (s.goto t pc).pc u = at' := by
  refine (goto_other ?_).trans found
  rintro rfl
  exact differ found

/-- A thread that takes no cell moves on. -/
theorem goto (inv : Invariant s) (before : ¬ (s.pc t).Taking) (after : ¬ pc.Taking) : Invariant (s.goto t pc) := by
  have was {u : Tid} (at' : Pc) (taking : at'.Taking) (found : (s.goto t pc).pc u = at') : s.pc u = at' :=
    (goto_before found fun same => after (same ▸ taking)).2
  exact {
    fits := inv.fits
    distinct := inv.distinct
    inside := inv.inside
    unheld := inv.unheld
    once := inv.once
    heldInside := inv.heldInside
    marked := fun u c held => (inv.marked u c held).imp_right fun marks =>
      goto_after marks fun here => before (here ▸ trivial)
    marking := fun u c marks => inv.marking u c (was (.mark c) trivial marks)
    taken := fun u idx reads =>
      have spare := inv.taken u idx (was (.readSlot idx) trivial reads)
      ⟨spare.inside,spare.out,spare.unheld⟩
    apart := fun u v i j differ hu hv =>
      inv.apart u v i j differ (was (.readSlot i) trivial hu) (was (.readSlot j) trivial hv) }

theorem lock (inv : Invariant s) : Invariant { s with pool := s.pool.lock } :=
  ⟨inv.fits,inv.distinct,inv.inside,inv.unheld,inv.once,inv.heldInside,inv.marked,inv.marking,
    fun t idx reads => ⟨(inv.taken t idx reads).inside,(inv.taken t idx reads).out,(inv.taken t idx reads).unheld⟩,
    inv.apart⟩

/-- A cell with a holder is in use when no thread is taking one. -/
theorem held_not_free (inv : Invariant s) (quiet : ∀ u, ¬ (s.pc u).Taking) {c : Cell} (free : c ∈ s.pool.free) (u : Tid) :
    (u,c) ∉ s.held := by
  intro held
  rcases inv.marked u c held with counted | marks
  · have := (Pool.mem_free.mp free).2
    have : neverUsed ≠ 1 := by decide
    omega
  · exact quiet u (marks ▸ trivial)

theorem collect (inv : Invariant s) (drained : s.head = s.tail) (quiet : ∀ u, ¬ (s.pc u).Taking) :
    Invariant { s with pool := s.pool.ssaGc } := by
  obtain ⟨collected,fits,_,_⟩ := Pool.ssaGc_collected inv.fits drained
  exact {
    fits
    distinct := collected.nodup
    inside := fun c member => (collected.entry member).1
    unheld := fun c member u held =>
      (collected.entry member).2.elim (fun free => inv.held_not_free quiet free u held)
        (fun new => new (inv.heldInside u c held))
    once := inv.once
    heldInside := fun u c held => collected.widen (inv.heldInside u c held)
    marked := fun u c held => by
      rw [show State.pool { s with pool := s.pool.ssaGc } = s.pool.ssaGc from rfl,
        collected.refCount_eq (inv.heldInside u c held)]
      exact inv.marked u c held
    marking := inv.marking
    taken := fun u idx reads => absurd (show (s.pc u).Taking from reads ▸ trivial) (quiet u)
    apart := fun u _ i _ _ reads => absurd (show (s.pc u).Taking from reads ▸ trivial) (quiet u) }

/-- The head moves past a cell, which is then spare and apart from what others take. -/
theorem take {idx : Nat} (inv : Invariant s) (here : s.pc t = .casHead idx) (head : s.head = idx)
    (filled : s.head ≠ s.tail) :
    Invariant ({ s with pool := { s.pool with freeSsa := s.pool.freeSsa.pop ssaBlk } }.goto t (.readSlot idx)) := by
  have split : s.free = s.slot idx :: (s.pool.freeSsa.pop ssaBlk).contents ssaBlk := by
    rw [← head]
    exact inv.fits.contents_pop filled
  have nodup := List.nodup_cons.mp (split ▸ inv.distinct)
  have first : s.slot idx ∈ s.free := split ▸ List.mem_cons_self
  have later {c : Cell} (member : c ∈ (s.pool.freeSsa.pop ssaBlk).contents ssaBlk) : c ∈ s.free :=
    split ▸ List.mem_cons_of_mem _ member
  exact {
    fits := inv.fits.pop
    distinct := nodup.2
    inside := fun c member => inv.inside c (later member)
    unheld := fun c member => inv.unheld c (later member)
    once := inv.once
    heldInside := inv.heldInside
    marked := fun u c held => (inv.marked u c held).imp_right fun marks => goto_after marks (by rw [here]; nofun)
    marking := fun u c marks => inv.marking u c (goto_before marks nofun).2
    taken := fun u i reads => by
      by_cases own : u = t
      · subst own
        cases goto_self.symm.trans reads
        exact ⟨inv.inside _ first,nodup.1,inv.unheld _ first⟩
      · have spare := inv.taken u i ((goto_other own).symm.trans reads)
        exact ⟨spare.inside,fun member => spare.out (later member),spare.unheld⟩
    apart := fun u v i j differ hu hv => by
      have other {w : Tid} {k : Nat} (apart : w ≠ t) (reads : (State.goto _ t (.readSlot idx)).pc w = .readSlot k) :
          s.slot k ≠ s.slot idx := fun same =>
        (inv.taken w k ((goto_other apart).symm.trans reads)).out (same ▸ first)
      by_cases hut : u = t
      · subst hut
        cases goto_self.symm.trans hu
        exact (other differ.symm hv).symm
      · by_cases hvt : v = t
        · subst hvt
          cases goto_self.symm.trans hv
          exact other differ hu
        · exact inv.apart u v i j differ ((goto_other hut).symm.trans hu) ((goto_other hvt).symm.trans hv) }

/-- The cell in the slot goes to the thread that moved the head past it. -/
theorem obtain_cell {idx : Nat} (inv : Invariant s) (here : s.pc t = .readSlot idx) :
    Invariant ({ s with held := (t,s.slot idx) :: s.held }.goto t (.mark (s.slot idx))) := by
  have spare := inv.taken t idx here
  exact {
    fits := inv.fits
    distinct := inv.distinct
    inside := inv.inside
    unheld := fun c member u held => by
      rcases List.mem_cons.mp held with new | old
      · cases new
        exact spare.out member
      · exact inv.unheld c member u old
    once := by
      refine List.nodup_cons.mpr ⟨fun member => ?_,inv.once⟩
      obtain ⟨⟨u,c⟩,held,rfl⟩ := List.mem_map.mp member
      exact spare.unheld u held
    heldInside := fun u c held => by
      rcases List.mem_cons.mp held with new | old
      · cases new
        exact spare.inside
      · exact inv.heldInside u c old
    marked := fun u c held => by
      rcases List.mem_cons.mp held with new | old
      · cases new
        exact .inr goto_self
      · exact (inv.marked u c old).imp_right fun marks => goto_after marks (by rw [here]; nofun)
    marking := fun u c marks => by
      by_cases own : u = t
      · subst own
        cases goto_self.symm.trans marks
        exact List.mem_cons_self
      · exact List.mem_cons_of_mem _ (inv.marking u c ((goto_other own).symm.trans marks))
    taken := fun u i reads => by
      obtain ⟨other,before⟩ := goto_before reads nofun
      have old := inv.taken u i before
      refine ⟨old.inside,old.out,fun v held => ?_⟩
      rcases List.mem_cons.mp held with new | held
      · exact inv.apart u t i idx other before here (Prod.mk.inj new).2
      · exact old.unheld v held
    apart := fun u v i j differ hu hv =>
      inv.apart u v i j differ (goto_before hu nofun).2 (goto_before hv nofun).2 }

theorem mark {c : Cell} (inv : Invariant s) (here : s.pc t = .mark c) :
    Invariant ((s.setCount c 1).goto t .readHead) :=
  have mine := inv.marking t c here
  { fits := inv.fits
    distinct := inv.distinct
    inside := inv.inside
    unheld := inv.unheld
    once := inv.once
    heldInside := inv.heldInside
    marked := fun u d held => by
      change Function.update s.pool.refCount c 1 d = 1 ∨ _
      by_cases same : d = c
      · exact .inl (by rw [same,Function.update_self])
      · rw [Function.update_of_ne same]
        exact (inv.marked u d held).imp_right fun marks =>
          goto_after marks fun h => same (Pc.mark.inj (here.symm.trans h)).symm
    marking := fun u d marks => inv.marking u d (goto_before marks nofun).2
    taken := fun u i reads =>
      have spare := inv.taken u i (goto_before reads nofun).2
      ⟨spare.inside,spare.out,spare.unheld⟩
    apart := fun u v i j differ hu hv =>
      inv.apart u v i j differ (goto_before hu nofun).2 (goto_before hv nofun).2 }

theorem drop {c : Cell} (inv : Invariant s) (held : (t,c) ∈ s.held) (marked : s.pc t ≠ .mark c) :
    Invariant { s.setCount c 0 with held := s.held.erase (t,c) } := by
  have kept {u : Tid} {d : Cell} (left : (u,d) ∈ s.held.erase (t,c)) : (u,d) ∈ s.held := List.mem_of_mem_erase left
  have other {u : Tid} {d : Cell} (left : (u,d) ∈ s.held.erase (t,c)) : d ≠ c := by
    rintro rfl
    have differ := ((List.Nodup.of_map _ inv.once).mem_erase_iff.mp left).1
    exact differ (List.inj_on_of_nodup_map inv.once (kept left) held rfl)
  exact {
    fits := inv.fits
    distinct := inv.distinct
    inside := inv.inside
    unheld := fun d member u left => inv.unheld d member u (kept left)
    once := inv.once.sublist (List.erase_sublist.map _)
    heldInside := fun u d left => inv.heldInside u d (kept left)
    marked := fun u d left => by
      change Function.update s.pool.refCount c 0 d = 1 ∨ _
      rw [Function.update_of_ne (other left)]
      exact inv.marked u d (kept left)
    marking := fun u d marks => by
      refine (List.mem_erase_of_ne ?_).mpr (inv.marking u d marks)
      intro same
      cases same
      exact marked marks
    taken := fun u i reads =>
      have spare := inv.taken u i reads
      ⟨spare.inside,spare.out,fun v left => spare.unheld v (kept left)⟩
    apart := inv.apart }

theorem start : Invariant State.start :=
  ⟨Pool.ssaInit_ring.1,Pool.ssaInit_nodup,fun _ => Pool.ssaInit_inside,fun _ _ _ => List.not_mem_nil,List.nodup_nil,
    fun _ _ held => absurd held List.not_mem_nil,fun _ _ held => absurd held List.not_mem_nil,nofun,nofun,nofun⟩

theorem step {a : Act} {next : State} (inv : Invariant s) (orderly : Orderly s a) (one : Step s a next) :
    Invariant next := by
  cases one with
  | readHead here | looksEmpty here | looksFilled here | busy here | lost here =>
    exact inv.goto (by rw [here]; exact id) id
  | locked here => exact inv.lock.goto (by rw [show State.pc _ _ = _ from here]; exact id) id
  | collect here =>
    simp only [Orderly,here] at orderly
    exact (inv.collect orderly.1 orderly.2).goto (orderly.2 _) id
  | taken here head =>
    simp only [Orderly,here] at orderly
    exact inv.take here head (orderly head)
  | readSlot here => exact inv.obtain_cell here
  | mark here => exact inv.mark here
  | drop held marked => exact inv.drop held marked

theorem findsRoom {a : Act} (inv : Invariant s) (orderly : Orderly s a) (collects : Collects s a) : FindsRoom s := by
  obtain ⟨t,idx,rfl,here⟩ := collects
  simp only [Orderly,here] at orderly
  exact fun seen _ => Pool.gcScan_positive inv.fits orderly.1 seen

end Invariant

/-- In orderly interleavings no cell is handed out twice, the ring has no duplicates, and
collections find room. -/
theorem orderly_safe {trace : List Act} {s : State} (run : Run (Guarded Orderly Step) .start trace s) :
    Safe s ∧ ∀ a next, Guarded Orderly Step s a next → Collects s a → FindsRoom s := by
  have inv : Invariant s := run.invariant Invariant (fun _ _ _ inv one => inv.step one.1 one.2) .start
  exact ⟨⟨inv.once,inv.distinct⟩,fun a next one collects => inv.findsRoom one.1 collects⟩

/-! One thread alone goes through the loop at once. -/

namespace State

/-- The thread has the cell at the head and is about to set its count. -/
def obtains (s : State) (t : Tid) : State :=
  { s with
    pool := { s.pool with freeSsa := s.pool.freeSsa.pop ssaBlk }
    held := (t,s.slot s.head) :: s.held }.goto t (.mark (s.slot s.head))

variable (s : State) (t : Tid)

theorem obtains_head : (s.obtains t).head = (s.head + 1) % ssaBlk := rfl
theorem obtains_tail : (s.obtains t).tail = s.tail := rfl
theorem obtains_slot (i : Nat) : (s.obtains t).slot i = s.slot i := rfl
theorem obtains_gcLock : (s.obtains t).pool.gcLock = s.pool.gcLock := rfl
theorem obtains_blocks : (s.obtains t).pool.blocks = s.pool.blocks := rfl
theorem obtains_refCount : (s.obtains t).pool.refCount = s.pool.refCount := rfl
theorem obtains_held : (s.obtains t).held = (t,s.slot s.head) :: s.held := rfl
theorem obtains_pc : (s.obtains t).pc t = .mark (s.slot s.head) := Function.update_self ..

theorem start_pool : start.pool = .ssaInit := rfl

theorem start_head : start.head = 0 := by
  rw [head,start_pool]
  exact Pool.ssaInit_ring.2.1

theorem start_tail : start.tail = ssaBlk - 1 := by
  rw [tail,start_pool]
  exact Pool.ssaInit_tail

theorem start_slot {i : Nat} (below : i < ssaBlk - 1) : start.slot i = ⟨0,i⟩ := by
  rw [slot,start_pool]
  exact Pool.ssaInit_slots below

end State

theorem obtains_goto {s : State} {t : Tid} {pc : Pc} : (s.goto t pc).obtains t = s.obtains t := by
  simp only [State.goto,State.obtains,State.head,State.slot,Function.update_idem]

theorem casHead_run {s : State} {t : Tid} (here : s.pc t = .casHead s.head) (filled : s.head ≠ s.tail) :
    Run (Guarded Orderly Step) s [.run t,.run t] (s.obtains t) := by
  have taken := Step.taken here rfl
  have reads := Step.readSlot (s := { s with pool := { s.pool with freeSsa := s.pool.freeSsa.pop ssaBlk } }.goto t
    (.readSlot s.head)) (t := t) Invariant.goto_self
  have same : (State.goto { s.goto t (.readSlot s.head) with
      pool := { s.pool with freeSsa := s.pool.freeSsa.pop ssaBlk }
      held := (t,s.slot s.head) :: s.held } t (.mark (s.slot s.head))) = s.obtains t := by
    simp only [State.goto,State.obtains,Function.update_idem]
  refine .cons ⟨?_,taken⟩ (.cons ⟨?_,same ▸ reads⟩ .nil)
  · simp only [Orderly,here]
    exact fun _ => filled
  · simp only [Orderly,Invariant.goto_self]

theorem testTail_run {s : State} {t : Tid} (here : s.pc t = .testTail s.head) (filled : s.head ≠ s.tail) :
    Run (Guarded Orderly Step) s [.run t,.run t,.run t] (s.obtains t) := by
  have run := casHead_run (s := s.goto t (.casHead s.head)) (t := t) Invariant.goto_self filled
  rw [obtains_goto] at run
  exact .cons ⟨by simp only [Orderly,here],.looksFilled here filled⟩ run

theorem readHead_run {s : State} {t : Tid} (here : s.pc t = .readHead) (filled : s.head ≠ s.tail) :
    Run (Guarded Orderly Step) s [.run t,.run t,.run t,.run t] (s.obtains t) := by
  have run := testTail_run (s := s.goto t (.testTail s.head)) (t := t) Invariant.goto_self filled
  rw [obtains_goto] at run
  exact .cons ⟨by simp only [Orderly,here],.readHead here⟩ run

theorem start_filled : State.start.head ≠ State.start.tail := by
  rw [State.start_head,State.start_tail]
  decide

/-! Thread 1 has the first cell, and thread 2 takes the rest of the ring. -/

/-- `counted` and `pc` are what thread 1 has left: the first cell's count, and where it is. -/
structure Draining (counted : Nat) (pc : Pc) (k : Nat) (s : State) : Prop where
  head : s.head = k
  tail : s.tail = ssaBlk - 1
  slots : ∀ i < ssaBlk - 1, s.slot i = ⟨0,i⟩
  unlocked : s.pool.gcLock = 0
  blocks : s.pool.blocks = 1
  count : s.pool.refCount ⟨0,0⟩ = counted
  held : (1,⟨0,0⟩) ∈ s.held
  one : s.pc 1 = pc
  others : ∀ u, u ≠ 1 → s.pc u = .readHead

namespace Draining
variable {counted : Nat} {pc : Pc} {k : Nat} {s : State}

/-- Thread 1 has moved the head past the first cell and is left where it is. -/
theorem start : Draining neverUsed (.mark ⟨0,0⟩) 1 (State.start.obtains 1) where
  head := by
    rw [State.obtains_head,State.start_head]
    decide
  tail := by rw [State.obtains_tail,State.start_tail]
  slots i below := by rw [State.obtains_slot,State.start_slot below]
  unlocked := by rw [State.obtains_gcLock,State.start_pool,Pool.ssaInit_gcLock]
  blocks := by rw [State.obtains_blocks,State.start_pool,Pool.ssaInit_blocks]
  count := by rw [State.obtains_refCount,State.start_pool,Pool.ssaInit_refCount rfl]
  held := by
    rw [State.obtains_held,State.start_head,State.start_slot (by decide)]
    exact List.mem_cons_self
  one := by rw [State.obtains_pc,State.start_head,State.start_slot (by decide)]
  others _ other := Invariant.goto_other other

/-- Thread 1 sets the count. -/
theorem mark (draining : Draining counted (.mark ⟨0,0⟩) k s) :
    Draining 1 .readHead k ((s.setCount ⟨0,0⟩ 1).goto 1 .readHead) where
  head := draining.head
  tail := draining.tail
  slots := draining.slots
  unlocked := draining.unlocked
  blocks := draining.blocks
  count := Function.update_self (⟨0,0⟩ : Cell) 1 s.pool.refCount
  held := draining.held
  one := Invariant.goto_self
  others u other := (Invariant.goto_other other).trans (draining.others u other)

/-- Thread 2 takes one more cell. -/
theorem advance (draining : Draining counted pc k s) (positive : 0 < k) (below : k < ssaBlk - 1) :
    ∃ trace next, Run (Guarded Orderly Step) s trace next ∧ Draining counted pc (k + 1) next := by
  have filled : s.head ≠ s.tail := by
    rw [draining.head,draining.tail]
    omega
  have slot : s.slot s.head = ⟨0,k⟩ := by
    rw [draining.head]
    exact draining.slots k below
  have marks := s.obtains_pc 2
  have last : Guarded Orderly Step (s.obtains 2) (.run 2) _ := ⟨by simp only [Orderly,marks],.mark marks⟩
  have apart (u : Tid) (other : u ≠ 2) : (((s.obtains 2).setCount (s.slot s.head) 1).goto 2 .readHead).pc u = s.pc u := by
    have before : (s.obtains 2).pc u = s.pc u := Invariant.goto_other other
    exact (Invariant.goto_other other).trans before
  refine ⟨_,_,(readHead_run (draining.others 2 (by decide)) filled).snoc last,?_⟩
  exact {
    head := by
      change (s.head + 1) % ssaBlk = k + 1
      rw [draining.head]
      exact Nat.mod_eq_of_lt (by omega)
    tail := draining.tail
    slots := draining.slots
    unlocked := draining.unlocked
    blocks := draining.blocks
    count := by
      change Function.update s.pool.refCount (s.slot s.head) 1 ⟨0,0⟩ = counted
      rw [slot,Function.update_of_ne]
      · exact draining.count
      · intro same
        have := (Cell.mk.inj same).2
        omega
    held := List.mem_cons_of_mem _ draining.held
    one := (apart 1 (by decide)).trans draining.one
    others := fun u other => by
      by_cases two : u = 2
      · subst two
        exact Invariant.goto_self
      · exact (apart u two).trans (draining.others u other) }

/-- Up to the last cell of the ring. -/
theorem drained (draining : Draining counted pc 1 s) :
    ∃ trace next, Run (Guarded Orderly Step) s trace next ∧ Draining counted pc (ssaBlk - 1) next := by
  suffices reached : ∀ k, k + 1 ≤ ssaBlk - 1 →
      ∃ trace next, Run (Guarded Orderly Step) s trace next ∧ Draining counted pc (k + 1) next from
    reached (ssaBlk - 2) (by decide)
  intro k within
  induction k with
  | zero => exact ⟨_,s,.nil,draining⟩
  | succ k ih =>
    obtain ⟨_,middle,run,before⟩ := ih (by omega)
    obtain ⟨_,next,run',after⟩ := before.advance (Nat.succ_pos k) (by omega)
    exact ⟨_,next,run.append run',after⟩

/-- Thread 2 finds the ring empty and takes the lock. -/
theorem locks (draining : Draining counted pc (ssaBlk - 1) s) :
    ∃ trace q, Run (Guarded Orderly Step) s trace q ∧ q.pool = s.pool.lock ∧ q.held = s.held ∧ q.pc 2 = .collect s.head ∧
      q.pc 1 = pc ∧ ∀ u, u ≠ 1 → u ≠ 2 → q.pc u = .readHead := by
  have empty : s.head = s.tail := draining.head.trans draining.tail.symm
  have here := draining.others 2 (by decide)
  let p := s.goto 2 (.testTail s.head)
  let r := p.goto 2 (.tryLock s.head)
  let q := State.goto { r with pool := s.pool.lock } 2 (.collect s.head)
  have at1 : p.pc 2 = .testTail s.head := Invariant.goto_self
  have at2 : r.pc 2 = .tryLock s.head := Invariant.goto_self
  have one : Guarded Orderly Step s (.run 2) p := ⟨by simp only [Orderly,here],.readHead here⟩
  have two : Guarded Orderly Step p (.run 2) r := ⟨by simp only [Orderly,at1],.looksEmpty at1 empty⟩
  have three : Guarded Orderly Step r (.run 2) q := ⟨by simp only [Orderly,at2],.locked at2 draining.unlocked⟩
  have apart (u : Tid) (other : u ≠ 2) : q.pc u = s.pc u :=
    (Invariant.goto_other other).trans ((Invariant.goto_other other).trans (Invariant.goto_other other))
  exact ⟨_,q,.cons one (.cons two (.cons three .nil)),rfl,rfl,Invariant.goto_self,(apart 1 (by decide)).trans draining.one,
    fun u other other' => (apart u other').trans (draining.others u other)⟩

theorem fits (draining : Draining counted pc (ssaBlk - 1) s) : s.pool.freeSsa.Fits ssaBlk :=
  ⟨Nat.lt_of_le_of_lt (Nat.le_of_eq draining.head) (by decide),Nat.lt_of_le_of_lt (Nat.le_of_eq draining.tail) (by decide)⟩

/-- After the collection thread 2 obtains the cell at the head. -/
theorem obtains (draining : Draining counted pc (ssaBlk - 1) s) {q : State} (pool : q.pool = s.pool.lock) :
    Run (Guarded Orderly Step) (State.goto { q with pool := q.pool.ssaGc } 2 (.testTail s.head)) [.run 2,.run 2,.run 2]
      (State.obtains { q with pool := q.pool.ssaGc } 2) := by
  have empty : s.head = s.tail := draining.head.trans draining.tail.symm
  obtain ⟨collected,keep,head,_⟩ := Pool.lock_collected draining.fits empty
  have filled : s.pool.lock.ssaGc.freeSsa.head ≠ s.pool.lock.ssaGc.freeSsa.tail := fun same =>
    collected.ne_nil (keep.contents_eq_nil.mpr same)
  have same : s.head = (State.goto { q with pool := q.pool.ssaGc } 2 (.testTail s.head)).head := by
    change s.head = q.pool.ssaGc.freeSsa.head
    rw [pool,head]
    rfl
  have run := testTail_run (s := State.goto { q with pool := q.pool.ssaGc } 2 (.testTail s.head)) (t := 2)
    (Invariant.goto_self.trans (congrArg Pc.testTail same)) (by rw [← pool] at filled; exact filled)
  rwa [obtains_goto] at run

end Draining

/-- Thread 1 has its cell; thread 2 takes all others, collects once the ring is empty and goes on.
The collection finds room, and the cells of both threads are safe. -/
theorem orderly_safe_collected : ∃ trace s next, Run (Guarded Orderly Step) .start trace s ∧ Guarded Orderly Step s (.run 2) next ∧
    Collects s (.run 2) ∧ FindsRoom s ∧
    ∃ trace' last c, Run (Guarded Orderly Step) next trace' last ∧ (1,⟨0,0⟩) ∈ last.held ∧ (2,c) ∈ last.held ∧ Safe last := by
  have first := readHead_run (t := 1) rfl start_filled
  have marks : (State.start.obtains 1).pc 1 = .mark ⟨0,0⟩ := Draining.start.one
  have marked : Guarded Orderly Step (State.start.obtains 1) (.run 1) _ := ⟨by simp only [Orderly,marks],.mark marks⟩
  obtain ⟨_,s,drain,draining⟩ := Draining.start.mark.drained
  obtain ⟨_,q,lock,pool,held,here,one,others⟩ := draining.locks
  have run := ((first.snoc marked).append drain).append lock
  have collects : Collects q (.run 2) := ⟨2,s.head,rfl,here⟩
  have empty : q.head = q.tail := by
    rw [State.head,State.tail,pool]
    exact draining.head.trans draining.tail.symm
  have quiet (u : Tid) : ¬(q.pc u).Taking := by
    by_cases two : u = 2
    · rw [two,here]
      exact id
    · by_cases first : u = 1
      · rw [first,one]
        exact id
      · rw [others u first two]
        exact id
  have collection : Guarded Orderly Step q (.run 2) _ := ⟨by simp only [Orderly,here]; exact ⟨empty,quiet⟩,.collect here⟩
  have more := draining.obtains pool
  have kept : (1,⟨0,0⟩) ∈ (State.obtains { q with pool := q.pool.ssaGc } 2).held :=
    List.mem_cons_of_mem _ (held ▸ draining.held)
  exact ⟨_,q,_,run,collection,collects,(orderly_safe run).2 _ _ collection collects,_,_,_,more,kept,List.mem_cons_self,
    (orderly_safe ((run.snoc collection).append more)).1⟩

/-- A collection of an empty ring offers the first cell first if its count says it is free. -/
theorem first_cell_reused {p : Pool} (fits : p.freeSsa.Fits ssaBlk) (empty : p.freeSsa.head = p.freeSsa.tail)
    (blocks : p.blocks = 1) (unmarked : p.refCount ⟨0,0⟩ = neverUsed) :
    p.lock.ssaGc.freeSsa.head ≠ p.lock.ssaGc.freeSsa.tail ∧
      p.lock.ssaGc.freeSsa.slots p.lock.ssaGc.freeSsa.head = ⟨0,0⟩ := by
  obtain ⟨collected,keep,_,_⟩ := Pool.lock_collected fits empty
  have filled : p.lock.ssaGc.freeSsa.head ≠ p.lock.ssaGc.freeSsa.tail := fun same =>
    collected.ne_nil (keep.contents_eq_nil.mpr same)
  refine ⟨filled,?_⟩
  have cells : ∃ rest, p.cells = ⟨0,0⟩ :: rest := by
    have nonempty : ssaBlk = (ssaBlk - 1) + 1 := by decide
    unfold Pool.cells
    rw [blocks,List.range_one,List.flatMap_cons,nonempty,List.range_succ_eq_map,List.map_cons,List.cons_append]
    exact ⟨_,rfl⟩
  obtain ⟨rest,cells⟩ := cells
  have free : p.free = ⟨0,0⟩ :: rest.filter p.isFree := by
    unfold Pool.free
    rw [cells]
    exact List.filter_cons_of_pos (by simp [Pool.isFree,unmarked])
  have split := keep.contents_pop filled
  cases collected with
  | reused entries =>
    have room : ssaBlk - 1 = (ssaBlk - 2) + 1 := by decide
    rw [split,free,room,List.take_succ_cons] at entries
    exact (List.cons.inj entries).1
  | grown entries =>
    rw [split,free,List.cons_append] at entries
    exact (List.cons.inj entries).1

/-- Thread 2 drains the ring, collects and obtains the cell that thread 1 still holds. -/
theorem cell_handed_out_twice :
    ¬ ∀ (trace : List Act) (s : State), Run Step .start trace s → Safe s := by
  intro claim
  obtain ⟨_,s,drain,draining⟩ := Draining.start.drained
  obtain ⟨_,q,lock,pool,held,here,_,_⟩ := draining.locks
  have run := (((readHead_run (t := 1) rfl start_filled).append drain).append lock).of_guarded
  have last := (draining.obtains pool).of_guarded
  have once := (claim _ _ ((run.snoc (.collect here)).append last)).once
  have empty : s.head = s.tail := draining.head.trans draining.tail.symm
  have first := (first_cell_reused draining.fits empty draining.blocks draining.count).2
  rw [← pool] at first
  rw [State.obtains_held,List.map_cons,List.nodup_cons] at once
  refine once.1 (List.mem_map.mpr ⟨_,held ▸ draining.held,?_⟩)
  exact first.symm

end Libdft.Ssa.Threads
