import Libdft.SsaPool
import Mathlib.Data.List.Nodup

/-! What one collection does to the pool when it starts on an empty ring: the free
cells enter in order, up to the room there is, and a new block follows when more
than half of the ring stays empty. The rest of the pool is as before. -/
namespace Libdft.Ssa.Pool

variable {p q : Pool} {c : Cell}

theorem mem_cells : c ∈ p.cells ↔ c.blk < p.blocks ∧ c.idx < ssaBlk := by
  cases c
  simp [cells]

theorem nodup_cells : p.cells.Nodup := by
  refine List.nodup_flatMap.mpr ⟨fun blk _ => ?_,?_⟩
  · exact List.nodup_range.map fun i j same => (Cell.mk.inj same).2
  · refine List.nodup_range.imp fun {i j} differ => ?_
    intro c member member'
    obtain ⟨_,_,rfl⟩ := List.mem_map.mp member
    obtain ⟨_,_,same⟩ := List.mem_map.mp member'
    exact differ (Cell.mk.inj same).1.symm

/-- The free cells in the order of the scan. -/
def free (p : Pool) : List Cell := p.cells.filter p.isFree

theorem mem_free : c ∈ p.free ↔ c ∈ p.cells ∧ (p.refCount c = 0 ∨ p.refCount c = neverUsed) := by
  simp [free,isFree]

theorem threshold_room : ssaGcThreshold + 1 < ssaBlk := by decide

theorem neverUsed_lt : neverUsed < 2 ^ 64 := by decide

theorem gcEnqueue_emptyCount {g : GcScan} (pos : 0 < g.emptyCount) (small : g.emptyCount < ssaBlk) :
    (p.gcEnqueue g c).emptyCount = g.emptyCount - 1 := by
  have : ssaBlk < 2 ^ 64 := by decide
  simp only [gcEnqueue]
  omega

/-- The scan of a list of cells that starts with room. -/
theorem gcScan_spec (cs : List Cell) (g : GcScan) (pos : 0 < g.emptyCount)
    (small : g.emptyCount < ssaBlk) :
    (p.gcScan cs g).1.ring =
        ((cs.filter p.isFree).take g.emptyCount).foldl (Ring.push ssaBlk) g.ring ∧
      (p.gcScan cs g).1.emptyCount = g.emptyCount - (cs.filter p.isFree).length ∧
      ((p.gcScan cs g).2 = false ↔ 0 < (p.gcScan cs g).1.emptyCount) := by
  induction cs generalizing g with
  | nil => simp [gcScan,pos]
  | cons c cs ih =>
    unfold gcScan
    by_cases isFree : p.isFree c = true
    · have count := p.gcEnqueue_emptyCount (c := c) pos small
      rw [if_pos isFree,List.filter_cons_of_pos isFree]
      obtain ⟨k,room⟩ : ∃ k, g.emptyCount = k + 1 := ⟨g.emptyCount - 1,by omega⟩
      rw [room,List.take_succ_cons,List.foldl_cons,List.length_cons]
      by_cases full : (p.gcEnqueue g c).emptyCount = 0
      · have none : k = 0 := by omega
        simp only [full,ite_true,none,List.take_zero,List.foldl_nil]
        exact ⟨rfl,by omega,by simp⟩
      · simp only [full,ite_false]
        obtain ⟨ring,left,flag⟩ := ih (p.gcEnqueue g c) (by omega) (by omega)
        rw [count,room,Nat.add_sub_cancel] at ring left
        refine ⟨ring,?_,flag⟩
        rw [left]
        omega
    · rw [if_neg isFree,List.filter_cons_of_neg isFree]
      exact ih g pos small

/-- What a collection from an empty ring comes to. -/
inductive Collected (p : Pool) : Pool → Prop where
  | reused : next.freeSsa.contents ssaBlk = p.free.take (ssaBlk - 1) →
      next.freeSsa.contents ssaBlk ≠ [] → next.blocks = p.blocks → next.refCount = p.refCount →
      next.bdd = p.bdd → Collected p next
  | grown : next.freeSsa.contents ssaBlk =
        p.free ++ (List.range (ssaBlk - 1 - p.free.length)).map (Cell.mk p.blocks) →
      ssaGcThreshold < ssaBlk - 1 - p.free.length → next.blocks = p.blocks + 1 →
      (∀ c, next.refCount c = if c.blk = p.blocks then neverUsed else p.refCount c) →
      (∀ c, c.blk ≠ p.blocks → next.bdd c = p.bdd c) → Collected p next

theorem foldl_push_head (xs : List Cell) (r : Ring Cell) :
    (xs.foldl (Ring.push ssaBlk) r).head = r.head := by
  induction xs generalizing r with
  | nil => rfl
  | cons x xs ih => rw [List.foldl_cons,ih]; rfl

theorem emptyCount_eq {r : Ring Cell} (fits : r.Fits ssaBlk) :
    emptyCount r = ssaBlk - 1 - r.count ssaBlk := fits.room

/-- A new block fills the ring up with its first cells. -/
theorem addSsaBlk_ring (fits : p.freeSsa.Fits ssaBlk) :
    p.addSsaBlk.freeSsa.Fits ssaBlk ∧ p.addSsaBlk.freeSsa.head = p.freeSsa.head ∧
      p.addSsaBlk.freeSsa.contents ssaBlk = p.freeSsa.contents ssaBlk ++
        (List.range (ssaBlk - 1 - p.freeSsa.count ssaBlk)).map (Cell.mk p.blocks) := by
  have below := fits.count_lt
  obtain ⟨keep,entries⟩ := fits.pushAll
    ((List.range (emptyCount p.freeSsa)).map (Cell.mk p.blocks))
    (by rw [emptyCount_eq fits]; simp; omega)
  refine ⟨keep,foldl_push_head _ _,entries.trans ?_⟩
  rw [emptyCount_eq fits]

/-- The first block but for its last cell is in the ring. -/
theorem ssaInit_ring : ssaInit.freeSsa.Fits ssaBlk ∧ ssaInit.freeSsa.head = 0 ∧
    ssaInit.freeSsa.contents ssaBlk = (List.range (ssaBlk - 1)).map (Cell.mk 0) := by
  have fits : empty.freeSsa.Fits ssaBlk := ⟨by decide,by decide⟩
  obtain ⟨keep,head,entries⟩ := addSsaBlk_ring fits
  rw [fits.contents_eq_nil.mpr rfl,List.nil_append,fits.count_eq_zero.mpr rfl,Nat.sub_zero] at entries
  exact ⟨keep,head,entries⟩

theorem ssaInit_nodup : (ssaInit.freeSsa.contents ssaBlk).Nodup := by
  rw [ssaInit_ring.2.2]
  exact List.nodup_range.map fun i j same => (Cell.mk.inj same).2

theorem ssaInit_inside (member : c ∈ ssaInit.freeSsa.contents ssaBlk) : c ∈ ssaInit.cells := by
  rw [ssaInit_ring.2.2] at member
  obtain ⟨i,below,rfl⟩ := List.mem_map.mp member
  have := List.mem_range.mp below
  exact mem_cells.mpr ⟨Nat.one_pos,by dsimp only; omega⟩

theorem ssaInit_gcLock : ssaInit.gcLock = 0 := by
  unfold ssaInit addSsaBlk empty
  rfl

theorem ssaInit_blocks : ssaInit.blocks = 1 := by
  unfold ssaInit addSsaBlk empty
  rfl

theorem ssaInit_refCount (first : c.blk = 0) : ssaInit.refCount c = neverUsed := by
  unfold ssaInit addSsaBlk empty
  exact if_pos first

theorem ssaInit_tail : ssaInit.freeSsa.tail = ssaBlk - 1 := by
  obtain ⟨fits,head,entries⟩ := ssaInit_ring
  have count : ssaInit.freeSsa.count ssaBlk = ssaBlk - 1 := by
    rw [← Ring.length_contents,entries,List.length_map,List.length_range]
  rw [fits.tail_eq,head,count,Nat.zero_add]
  exact Nat.mod_eq_of_lt (by decide)

theorem ssaInit_slots {i : Nat} (below : i < ssaBlk - 1) : ssaInit.freeSsa.slots i = ⟨0,i⟩ := by
  obtain ⟨fits,head,entries⟩ := ssaInit_ring
  have entry := congrArg (fun l => l[i]?) entries
  have count : i < ssaInit.freeSsa.count ssaBlk := by
    rw [← Ring.length_contents,entries,List.length_map,List.length_range]
    exact below
  simp only [Ring.contents,List.getElem?_map,List.getElem?_range count,List.getElem?_range below,Option.map_some,head,
    Nat.zero_add,Option.some.injEq] at entry
  rwa [Nat.mod_eq_of_lt (by omega)] at entry

theorem gcStart_room (fits : p.freeSsa.Fits ssaBlk) (drained : p.freeSsa.head = p.freeSsa.tail) :
    p.gcStart.emptyCount = ssaBlk - 1 := by
  show emptyCount p.freeSsa = _
  rw [emptyCount_eq fits,fits.count_eq_zero.mpr drained,Nat.sub_zero]

/-- What a scan of a drained ring has pushed is in the ring, and nothing was written over. -/
theorem gcScan_ring (fits : p.freeSsa.Fits ssaBlk) (drained : p.freeSsa.head = p.freeSsa.tail) (seen : List Cell) :
    (p.gcScan seen p.gcStart).1.ring.Fits ssaBlk ∧
      (p.gcScan seen p.gcStart).1.ring.contents ssaBlk = (seen.filter p.isFree).take (ssaBlk - 1) ∧
      (p.gcScan seen p.gcStart).1.ring.head = p.freeSsa.head := by
  have room := threshold_room
  have start := gcStart_room fits drained
  have idle := fits.count_eq_zero.mpr drained
  have ring := (p.gcScan_spec seen p.gcStart (by omega) (by omega)).1
  rw [start] at ring
  change _ = ((seen.filter p.isFree).take (ssaBlk - 1)).foldl _ p.freeSsa at ring
  have taken : ((seen.filter p.isFree).take (ssaBlk - 1)).length = min (ssaBlk - 1) (seen.filter p.isFree).length := List.length_take
  obtain ⟨keep,entries⟩ := fits.pushAll ((seen.filter p.isFree).take (ssaBlk - 1)) (by omega)
  rw [fits.contents_eq_nil.mpr drained,List.nil_append] at entries
  rw [ring]
  exact ⟨keep,entries,foldl_push_head _ _⟩

theorem ssaGc_collected (fits : p.freeSsa.Fits ssaBlk) (drained : p.freeSsa.head = p.freeSsa.tail) :
    Collected p p.ssaGc ∧ p.ssaGc.freeSsa.Fits ssaBlk ∧ p.ssaGc.freeSsa.head = p.freeSsa.head ∧
      p.ssaGc.gcLock = 0 := by
  have room := threshold_room
  have start := gcStart_room fits drained
  obtain ⟨_,left,flag⟩ := p.gcScan_spec p.cells p.gcStart (by omega) (by omega)
  rw [start] at left
  change _ = ssaBlk - 1 - p.free.length at left
  have taken : (p.free.take (ssaBlk - 1)).length = min (ssaBlk - 1) p.free.length := List.length_take
  obtain ⟨keep,entries,head⟩ := gcScan_ring fits drained p.cells
  change _ = p.free.take (ssaBlk - 1) at entries
  unfold ssaGc
  generalize p.gcScan p.cells p.gcStart = scanned at left flag keep entries head ⊢
  obtain ⟨g,exitGc⟩ := scanned
  dsimp only at left flag keep entries head ⊢
  by_cases more : exitGc = false ∧ ssaGcThreshold < g.emptyCount
  · rw [if_pos more]
    have short : p.free.length ≤ ssaBlk - 1 := by omega
    have all : p.free.take (ssaBlk - 1) = p.free := List.take_of_length_le short
    rw [all] at entries
    have count : g.ring.count ssaBlk = p.free.length := by rw [← Ring.length_contents,entries]
    obtain ⟨keep',head',entries'⟩ := addSsaBlk_ring (p := p.settle g) keep
    change _ = g.ring.contents ssaBlk ++ (List.range (ssaBlk - 1 - g.ring.count ssaBlk)).map
      (Cell.mk p.blocks) at entries'
    rw [entries,count] at entries'
    exact ⟨.grown entries' (by omega) rfl (fun c => rfl) (fun c other => if_neg other),keep',
      head'.trans head,rfl⟩
  · rw [if_neg more]
    refine ⟨.reused entries ?_ rfl rfl rfl,keep,head,rfl⟩
    show g.ring.contents ssaBlk ≠ []
    rw [entries,← List.length_pos_iff,taken]
    rcases Nat.eq_zero_or_pos g.emptyCount with full | some
    · omega
    · have := flag.mpr some
      have : ¬ ssaGcThreshold < g.emptyCount := fun less => more ⟨this,less⟩
      omega

/-- The counter that `ssa_gc` decrements stays positive up to the cell that fills the ring. -/
theorem gcScan_positive (fits : p.freeSsa.Fits ssaBlk) (drained : p.freeSsa.head = p.freeSsa.tail)
    (seen : List Cell) (going : (p.gcScan seen p.gcStart).2 = false) :
    0 < (p.gcScan seen p.gcStart).1.emptyCount := by
  have room := threshold_room
  have start := gcStart_room fits drained
  exact (p.gcScan_spec seen p.gcStart (by omega) (by omega)).2.2.mp going

theorem Collected.ne_nil (collected : Collected p q) : q.freeSsa.contents ssaBlk ≠ [] := by
  cases collected with
  | reused _ some => exact some
  | grown entries less =>
    rw [entries,← List.length_pos_iff]
    simp
    omega

theorem old_block (member : c ∈ p.cells) : c.blk ≠ p.blocks := Nat.ne_of_lt (mem_cells.mp member).1

namespace Collected

variable (collected : Collected p q)
include collected

theorem nodup : (q.freeSsa.contents ssaBlk).Nodup := by
  have free : p.free.Nodup := nodup_cells.filter _
  cases collected with
  | reused entries => exact entries ▸ free.sublist (List.take_sublist ..)
  | grown entries =>
    rw [entries,List.nodup_append]
    refine ⟨free,List.nodup_range.map fun i j same => (Cell.mk.inj same).2,?_⟩
    rintro c member _ new rfl
    obtain ⟨_,_,rfl⟩ := List.mem_map.mp new
    exact old_block (mem_free.mp member).1 rfl

theorem widen (member : c ∈ p.cells) : c ∈ q.cells := by
  obtain ⟨blk,idx⟩ := mem_cells.mp member
  cases collected with
  | reused _ _ blocks => exact mem_cells.mpr ⟨blocks ▸ blk,idx⟩
  | grown _ _ blocks => exact mem_cells.mpr ⟨blocks ▸ Nat.lt_succ_of_lt blk,idx⟩

/-- What enters the ring is a free cell or comes from a new block. -/
theorem entry (member : c ∈ q.freeSsa.contents ssaBlk) : c ∈ q.cells ∧ (c ∈ p.free ∨ c ∉ p.cells) := by
  have old (free : c ∈ p.free) : c ∈ q.cells ∧ (c ∈ p.free ∨ c ∉ p.cells) :=
    ⟨collected.widen (mem_free.mp free).1,.inl free⟩
  cases collected with
  | reused entries => exact old (List.mem_of_mem_take (entries ▸ member))
  | grown entries _ blocks =>
    rcases List.mem_append.mp (entries ▸ member) with member | new
    · exact old member
    · obtain ⟨i,below,rfl⟩ := List.mem_map.mp new
      have := List.mem_range.mp below
      refine ⟨?_,.inr fun member => old_block member rfl⟩
      rw [mem_cells,blocks]
      exact ⟨Nat.lt_succ_self _,by dsimp only; omega⟩

theorem refCount_eq (member : c ∈ p.cells) : q.refCount c = p.refCount c := by
  cases collected with
  | reused _ _ _ counts => rw [counts]
  | grown _ _ _ counts => rw [counts,if_neg (old_block member)]

theorem refCount_new (new : c ∉ p.cells) (member : c ∈ q.cells) : q.refCount c = neverUsed := by
  obtain ⟨blk,idx⟩ := mem_cells.mp member
  cases collected with
  | reused _ _ blocks => exact absurd (mem_cells.mpr ⟨blocks ▸ blk,idx⟩) new
  | grown _ _ blocks counts =>
    refine (counts c).trans (if_pos ?_)
    have : c.blk < p.blocks + 1 := blocks ▸ blk
    have : ¬ c.blk < p.blocks := fun less => new (mem_cells.mpr ⟨less,idx⟩)
    omega

end Collected

/-- Cells that exist keep their diagram over a collection. -/
theorem Collected.bdd_eq (collected : Collected p q) (member : c ∈ p.cells) : q.bdd c = p.bdd c := by
  cases collected with
  | reused _ _ _ _ values => rw [values]
  | grown _ _ _ _ values => exact values c (Nat.ne_of_lt (mem_cells.mp member).1)

/-- The collection of a thread that has just taken the lock. -/
theorem lock_collected (fits : p.freeSsa.Fits ssaBlk) (drained : p.freeSsa.head = p.freeSsa.tail) :
    Collected p p.lock.ssaGc ∧ p.lock.ssaGc.freeSsa.Fits ssaBlk ∧
      p.lock.ssaGc.freeSsa.head = p.freeSsa.head ∧ p.lock.ssaGc.gcLock = 0 := by
  obtain ⟨collected,rest⟩ := ssaGc_collected (p := p.lock) fits drained
  refine ⟨?_,rest⟩
  cases collected with
  | reused entries some blocks counts values => exact .reused entries some blocks counts values
  | grown entries less blocks counts values => exact .grown entries less blocks counts values

/-- The pool that the waiting loop of an allocation leaves behind. -/
def refilled (p : Pool) : Pool :=
  if p.freeSsa.head = p.freeSsa.tail then p.lock.ssaGc else p

/-- On an unlocked pool an allocation returns: one collection is enough. -/
theorem victim_returns (fits : p.freeSsa.Fits ssaBlk) (unlocked : p.gcLock = 0) :
    Returns (fun fuel => p.victim fuel) ({ p.refilled with freeSsa := p.refilled.freeSsa.pop ssaBlk },
      p.refilled.freeSsa.slots p.refilled.freeSsa.head) := by
  refine p.victim_steady.returns (n := 2) ?_
  unfold victim
  have waited : loop (waitPass p.freeSsa.head) 2 p = .returned p.refilled := by
    unfold refilled
    by_cases drained : p.freeSsa.head = p.freeSsa.tail
    · rw [if_pos drained]
      obtain ⟨collected,keep,head,_⟩ := lock_collected fits drained
      have some : p.freeSsa.head ≠ p.lock.ssaGc.freeSsa.tail := fun same =>
        collected.ne_nil (keep.contents_eq_nil.mpr (head.trans same))
      have first : waitPass p.freeSsa.head p = .returned (.again p.lock.ssaGc) := by
        unfold waitPass
        rw [if_pos drained,if_pos unlocked]
        rfl
      have second : waitPass p.freeSsa.head p.lock.ssaGc =
          .returned (.leave p.lock.ssaGc) := by
        unfold waitPass
        rw [if_neg some]
        rfl
      rw [loop_succ,first,Outcome.returned_bind]
      dsimp only
      rw [loop_succ,second]
      rfl
    · rw [if_neg drained]
      have first : waitPass p.freeSsa.head p = .returned (.leave p) := by
        unfold waitPass
        rw [if_neg drained]
        rfl
      rw [loop_succ,first]
      rfl
  have head : p.refilled.freeSsa.head = p.freeSsa.head := by
    unfold refilled
    split
    · rename_i drained
      exact (lock_collected fits drained).2.2.1
    · rfl
  rw [loop_succ]
  unfold victimPass
  dsimp only
  rw [waited,Outcome.returned_bind,if_pos head,head]
  rfl

end Libdft.Ssa.Pool
