import Libdft.LlmssetAlone
import Libdft.OperationCacheAlone
import Libdft.SylvanAnd

/-! The words of `sylvan_mtbdd_int.h`: edges and nodes as the tables hold them. The lockless table
and the operation cache, used by one worker, keep the laws that the operations ask for. -/
namespace Libdft.Sylvan

open Diagram
open Llmsset (Word maskIndex)

def mtbddComplement : Word := 0x8000000000000000

/-- An `MTBDD` -/
def edgeWord (e : Edge) : Word := (if e.mark then mtbddComplement else 0) ||| BitVec.ofNat 64 e.index

def wordEdge (w : Word) : Edge := ⟨w.msb,(w &&& maskIndex).toNat⟩

/-- `mtbddnode_makenode` -/
def mtbddnodeMakenode (n : Node) : Llmsset.Key := (edgeWord n.high,BitVec.ofNat 64 n.var <<< 40 ||| BitVec.ofNat 64 n.low)

/-- `mtbddnode_getvariable`, `mtbddnode_getlow` and `mtbddnode_gethigh` -/
def readNode (k : Llmsset.Key) : Node := ⟨(k.2 >>> 40).toNat,(k.2 &&& maskIndex).toNat,wordEdge k.1⟩

/-- 24 bits for a variable, 40 for an index. -/
def fits (n : Node) : Bool := n.var < 2 ^ 24 ∧ n.low < 2 ^ 40 ∧ n.high.index < 2 ^ 40

theorem and_maskIndex (w : Word) : (w &&& maskIndex).toNat = w.toNat % 2 ^ 40 := by
  rw [BitVec.toNat_and]
  exact Nat.and_two_pow_sub_one_eq_mod w.toNat 40

theorem edgeWord_toNat {e : Edge} (small : e.index < 2 ^ 40) : (edgeWord e).toNat = (if e.mark then 2 ^ 63 else 0) + e.index := by
  obtain ⟨mark,index⟩ := e
  change index < 2 ^ 40 at small
  cases mark with
  | false =>
    simp only [edgeWord,Bool.false_eq_true,if_false]
    show (0#64 ||| BitVec.ofNat 64 index).toNat = 0 + index
    rw [BitVec.zero_or,BitVec.toNat_ofNat,Nat.zero_add,Nat.mod_eq_of_lt (by omega)]
  | true =>
    have high : mtbddComplement.toNat = 2 ^ 63 * 1 := by decide
    simp only [edgeWord,if_true]
    rw [BitVec.toNat_or,BitVec.toNat_ofNat,Nat.mod_eq_of_lt (by omega),high,← Nat.two_pow_add_eq_or_of_lt (by omega)]
    omega

theorem wordEdge_edgeWord {e : Edge} (small : e.index < 2 ^ 40) : wordEdge (edgeWord e) = e := by
  have value := edgeWord_toNat small
  obtain ⟨mark,index⟩ := e
  change index < 2 ^ 40 at small
  have low : (edgeWord ⟨mark,index⟩ &&& maskIndex).toNat = index := by
    rw [and_maskIndex,value]
    cases mark <;> simp only [Bool.false_eq_true,if_true,if_false] <;> omega
  have high : (edgeWord ⟨mark,index⟩).msb = mark := by
    rw [BitVec.msb_eq_decide,value]
    cases mark with
    | false => simp; omega
    | true => simp
  rw [wordEdge,low,high]

theorem wordEdge_index (w : Word) : (wordEdge w).index < 2 ^ 40 := by
  rw [wordEdge,and_maskIndex]
  exact Nat.mod_lt _ (by decide)

theorem fits_readNode (k : Llmsset.Key) : fits (readNode k) = true := by
  rw [fits,decide_eq_true_iff]
  refine ⟨?_,?_,wordEdge_index k.1⟩
  · have bound := k.2.isLt
    simp only [readNode,BitVec.toNat_ushiftRight,Nat.shiftRight_eq_div_pow]
    omega
  · rw [readNode,and_maskIndex]
    exact Nat.mod_lt _ (by decide)

theorem readNode_makenode {n : Node} (inside : fits n = true) : readNode (mtbddnodeMakenode n) = n := by
  rw [fits,decide_eq_true_iff] at inside
  obtain ⟨var,low,high⟩ := inside
  have word : (BitVec.ofNat 64 n.var <<< 40 ||| BitVec.ofNat 64 n.low).toNat = 2 ^ 40 * n.var + n.low := by
    rw [BitVec.toNat_or,BitVec.toNat_shiftLeft,BitVec.toNat_ofNat,BitVec.toNat_ofNat,Nat.shiftLeft_eq,Nat.mod_eq_of_lt (by omega : n.low < 2 ^ 64),
      Nat.mod_eq_of_lt (by omega : n.var < 2 ^ 64),Nat.mod_eq_of_lt (by omega),Nat.mul_comm,← Nat.two_pow_add_eq_or_of_lt low]
  have var' : ((BitVec.ofNat 64 n.var <<< 40 ||| BitVec.ofNat 64 n.low) >>> 40).toNat = n.var := by
    rw [BitVec.toNat_ushiftRight,word,Nat.shiftRight_eq_div_pow]
    omega
  have low' : ((BitVec.ofNat 64 n.var <<< 40 ||| BitVec.ofNat 64 n.low) &&& maskIndex).toNat = n.low := by
    rw [and_maskIndex,word]
    omega
  simp only [readNode,mtbddnodeMakenode]
  rw [var',low',wordEdge_edgeWord high]

/-! The table of nodes of one worker. -/

section Nodes
variable {p : Llmsset.Params} {t : Llmsset.Tid}

/-- The table between the lookups of a worker. -/
structure NodeTable (p : Llmsset.Params) (t : Llmsset.Tid) where
  table : Llmsset.Table p

open Classical in
/-- The nodes that entries name. -/
noncomputable def NodeTable.nodes (x : NodeTable p t) (i : Nat) : Option Node :=
  if x.table.dbs.Published i ∧ mtbddnodeMakenode (readNode (x.table.dbs.data i)) = x.table.dbs.data i then
    some (readNode (x.table.dbs.data i))
  else none

theorem NodeTable.nodes_eq_some {x : NodeTable p t} {i : Nat} {n : Node} :
    x.nodes i = some n ↔ Llmsset.Stored x.table.dbs i (mtbddnodeMakenode n) ∧ fits n = true := by
  unfold nodes
  constructor
  · intro here
    split at here
    next known =>
      obtain rfl := Option.some.inj here
      exact ⟨⟨known.1,known.2.symm⟩,fits_readNode _⟩
    next => cases here
  · rintro ⟨⟨published,content⟩,inside⟩
    have read : readNode (x.table.dbs.data i) = n := by rw [content,readNode_makenode inside]
    rw [read,content,if_pos ⟨published,rfl⟩]

open Classical in
/-- `llmsset_lookup` for the contents of a node; there is no other node. -/
noncomputable def NodeTable.lookup (x : NodeTable p t) (n : Node) : Nat × NodeTable p t :=
  if fits n then
    let found := x.table.looks t (mtbddnodeMakenode n)
    (found.choose,⟨found.choose_spec.choose⟩)
  else (0,x)

theorem NodeTable.lookup_looks (x : NodeTable p t) {n : Node} (inside : fits n = true) :
    x.table.Looks t (mtbddnodeMakenode n) (x.lookup n).1 (x.lookup n).2.table := by
  rw [lookup,if_pos inside]
  exact (x.table.looks t (mtbddnodeMakenode n)).choose_spec.choose_spec

theorem NodeTable.lookup_unfit (x : NodeTable p t) {n : Node} (outside : ¬fits n = true) : x.lookup n = (0,x) := if_neg outside

noncomputable instance : UniqueTable (NodeTable p t) where
  nodes := NodeTable.nodes
  lookup := NodeTable.lookup
  lookup_found x n i here _ := by
    obtain ⟨stored,inside⟩ := NodeTable.nodes_eq_some.mp here
    obtain ⟨index,same⟩ := (x.lookup_looks inside).found stored
    exact Prod.ext index (congrArg NodeTable.mk same)
  lookup_stored x n some := by
    by_cases inside : fits n = true
    · exact NodeTable.nodes_eq_some.mpr ⟨(x.lookup_looks inside).stored some,inside⟩
    · rw [x.lookup_unfit inside] at some
      exact absurd rfl some
  lookup_extends x n i n' here := by
    obtain ⟨stored,inside'⟩ := NodeTable.nodes_eq_some.mp here
    by_cases inside : fits n = true
    · exact NodeTable.nodes_eq_some.mpr ⟨stored.grow (x.lookup_looks inside).grows,inside'⟩
    · rw [x.lookup_unfit inside]
      exact here
  nodes_zero x := by
    cases here : x.nodes 0 with
    | none => rfl
    | some n =>
      have large := (x.table.inv.table.inside 0 (NodeTable.nodes_eq_some.mp here).1.1).1
      exact absurd large (by decide)

end Nodes

/-! The operation cache of one worker, under `CACHE_BDD_AND`. -/

def cacheBddAnd : Word := 1 <<< 40

/-- What `cache_get3` and `cache_put3` make of the operands. -/
def cacheKey (a b : Edge) : OperationCache.Key := ⟨edgeWord a ||| cacheBddAnd,edgeWord b,edgeWord sylvanFalse⟩

theorem wordEdge_or_cacheBddAnd (w : Word) : wordEdge (w ||| cacheBddAnd) = wordEdge w := by
  have high : cacheBddAnd.msb = false := by decide
  have low : cacheBddAnd &&& maskIndex = 0 := by decide
  rw [wordEdge,BitVec.msb_or,high,Bool.or_false,BitVec.and_or_distrib_right,low]
  simp [wordEdge]

theorem cacheKey_inj {a b a' b' : Edge} (same : cacheKey a b = cacheKey a' b') (small : a.index < 2 ^ 40) (small' : b.index < 2 ^ 40)
    (small₁ : a'.index < 2 ^ 40) (small₂ : b'.index < 2 ^ 40) : a = a' ∧ b = b' := by
  have first := congrArg (fun k => wordEdge k.a) same
  have second := congrArg (fun k => wordEdge k.b) same
  simp only [cacheKey,wordEdge_or_cacheBddAnd] at first second
  rw [wordEdge_edgeWord small,wordEdge_edgeWord small₁] at first
  rw [wordEdge_edgeWord small',wordEdge_edgeWord small₂] at second
  exact ⟨first,second⟩

/-- The cache between the calls of a worker, as a run from the empty cache leaves it. -/
structure BddCache (mask : OperationCache.Word) where
  state : OperationCache.State
  reached : ∃ trace, Run (OperationCache.Step mask) .fresh trace state
  idle : ∀ t, state.pc t = .idle
  unlocked : ∀ q, OperationCache.isLocked (state.status q) = false

namespace BddCache
variable {mask : OperationCache.Word}

theorem fresh_unlocked (q : Nat) : OperationCache.isLocked (OperationCache.State.fresh.status q) = false := by
  change OperationCache.isLocked 0 = false
  decide

def empty : BddCache mask := ⟨.fresh,⟨[],.nil⟩,fun _ => rfl,fresh_unlocked⟩

/-- `cache_get3`; the operands are edges of the table. -/
def get (c : BddCache mask) (a b : Edge) : Option Edge :=
  if a.index < 2 ^ 40 ∧ b.index < 2 ^ 40 then (c.state.found mask (cacheKey a b)).map wordEdge else none

theorem get_empty (a b : Edge) : (empty : BddCache mask).get a b = none := by
  have marked : edgeWord a ||| cacheBddAnd ≠ 0 := by
    intro zero
    have off := (BitVec.or_eq_zero_iff.mp zero).2
    exact absurd off (by decide)
  have other : (OperationCache.State.fresh.table (OperationCache.bucket mask (cacheKey a b))).toKey ≠ cacheKey a b :=
    fun same => marked (congrArg OperationCache.Key.a same).symm
  have miss : OperationCache.State.fresh.found mask (cacheKey a b) = none := if_pos (.inr other)
  simp [get,empty,miss]

theorem put_reached (c : BddCache mask) (e : OperationCache.Entry) :
    ∃ trace, Run (OperationCache.Step mask) .fresh trace (c.state.after mask e) := by
  obtain ⟨trace,run⟩ := c.reached
  exact ⟨_,run.append (OperationCache.put_alone (c.idle 0) e (c.unlocked _))⟩

/-- `cache_put3` -/
def put (c : BddCache mask) (a b r : Edge) : BddCache mask :=
  if a.index < 2 ^ 40 ∧ b.index < 2 ^ 40 ∧ r.index < 2 ^ 40 then
    ⟨c.state.after mask ⟨cacheKey a b,edgeWord r⟩,c.put_reached _,c.idle,OperationCache.after_unlocked c.unlocked _⟩
  else c

/-- That is what a get by some worker returns, and it changes nothing. -/
theorem get_run (c : BddCache mask) (t : OperationCache.Tid) (a b : Edge) : ∃ n,
    Run (OperationCache.Step mask) c.state (.get t (cacheKey a b) :: List.replicate n (.run t))
      { c.state with log := ⟨cacheKey a b,c.state.found mask (cacheKey a b),0⟩ :: c.state.log } :=
  OperationCache.get_alone (c.idle t) (cacheKey a b)

end BddCache

instance {mask : OperationCache.Word} : OpCache (BddCache mask) where
  get := BddCache.get
  put := BddCache.put
  get_put c a b r a' b' x hit := by
    unfold BddCache.put at hit
    split at hit
    next small =>
      unfold BddCache.get at hit
      split at hit
      next small' =>
        obtain ⟨w,found,rfl⟩ := Option.map_eq_some_iff.mp hit
        rcases OperationCache.found_after found with ⟨same,rfl⟩ | kept
        · obtain ⟨rfl,rfl⟩ := cacheKey_inj same small'.1 small'.2 small.1 small.2.1
          exact .inl ⟨rfl,rfl,wordEdge_edgeWord small.2.2⟩
        · refine .inr ?_
          rw [BddCache.get,if_pos small',kept]
          rfl
      next => cases hit
    next => exact .inr hit

end Libdft.Sylvan
