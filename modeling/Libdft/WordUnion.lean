import Libdft.SylvanUnion
import Libdft.SylvanWords

/-! The union over the tables as they are in memory. Every node that the conjunction needs is one
that the words hold, so that only an exhausted table stops it. -/
namespace Libdft.Sylvan

open Diagram
open UniqueTable (nodes lookup)

section Words
variable {p : Llmsset.Params} {t : Llmsset.Tid} {C : Type} {x y : NodeTable p t}

theorem stored_fits (here : nodes x i = some n) : fits n = true := (NodeTable.nodes_eq_some.mp here).2

theorem stored_small (here : nodes x i = some n) : i < 2 ^ 40 := by
  have inside := (x.table.inv.table.inside i (NodeTable.nodes_eq_some.mp here).1.1).2.1
  exact Nat.lt_of_lt_of_le inside (Nat.pow_le_pow_right (by decide) p.index_le)

theorem denotes_small (denotes : Diagram.Denotes (nodes x) h v i f) : i < 2 ^ 40 := by
  cases denotes with
  | leaf => decide
  | node _ here => exact stored_small here

theorem stored_var (i : Nat) (n : Node) (here : nodes x i = some n) : n.var < 2 ^ 24 := by
  have inside := stored_fits here
  rw [fits,decide_eq_true_iff] at inside
  exact inside.1

/-- The functions of the table look only at variables that its words hold. -/
theorem Represents.bounded {s : State (NodeTable p t) C} {e : Edge} (represents : Represents s e f) : Bounded (2 ^ 24) f := by
  obtain ⟨h,v,g,denotes,rfl⟩ := represents
  have bounded := denotes.bounded stored_var
  exact fun σ σ' agree => congrArg (e.mark ^^ ·) (bounded σ σ' agree)

theorem Comes.bounded (comes : Comes f g f' g') (first : Bounded b f) (second : Bounded b g) : Bounded b f' ∧ Bounded b g' := by
  induction comes with
  | here => exact ⟨first,second⟩
  | low branch branch' _ ih => exact ih (branch.low_bounded first) (branch'.low_bounded second)
  | high branch branch' _ ih => exact ih (branch.high_bounded first) (branch'.high_bounded second)

/-- Its variable is one of the operands', and its edges are to nodes of the table. -/
theorem Needed.fits (first : Bounded (2 ^ 24) f) (second : Bounded (2 ^ 24) g) (needed : Needed f g (nodes x) n) : fits n = true := by
  obtain ⟨f',g',comes,forms⟩ := needed
  obtain ⟨first',second'⟩ := comes.bounded first second
  have var := forms.var_lt (hashConsed x) (first'.and second')
  obtain ⟨_,_,_,_,_,low,high,_⟩ := forms
  rw [Sylvan.fits,decide_eq_true_iff]
  exact ⟨var,denotes_small low,denotes_small high⟩

/-- The worker's lookups of needed nodes lead from the one table to the other: nodes that the words
hold, and each found room. -/
def Worked (needs : Nodes → Node → Prop) : NodeTable p t → NodeTable p t → Prop :=
  Relation.ReflTransGen fun x y =>
    ∃ n idx, needs (nodes x) n ∧ fits n = true ∧ idx ≠ 0 ∧ x.table.Looks t (mtbddnodeMakenode n) idx y.table

/-- After such lookups that of one more needed node fails, which leaves the table exhausted for it. -/
def Stuck (needs : Nodes → Node → Prop) (x : NodeTable p t) : Prop :=
  ∃ y n z, Worked needs x y ∧ needs (nodes y) n ∧ fits n = true ∧ y.table.Looks t (mtbddnodeMakenode n) 0 z ∧
    Llmsset.Exhausted p z.state (mtbddnodeMakenode n)

section Fit
variable {needs : Nodes → Node → Prop} (fit : ∀ (x : NodeTable p t) n, needs (nodes x) n → fits n = true)
include fit

theorem Grown.worked (grown : Grown needs x y) : Worked needs x y := by
  induction grown with
  | refl => exact .refl
  | @tail y z _ step ih =>
    obtain ⟨n,needed,room,rfl⟩ := step
    exact ih.tail ⟨n,_,needed,fit y n needed,room,y.lookup_looks (fit y n needed)⟩

theorem NoRoom.stuck (full : NoRoom needs x) : Stuck needs x := by
  obtain ⟨y,grown,n,needed,no⟩ := full
  have inside := fit y n needed
  have looks := y.lookup_looks inside
  have exhausted := looks.exhausted no
  rw [show (y.lookup n).1 = 0 from no] at looks
  exact ⟨y,n,_,grown.worked fit,needed,inside,looks,exhausted⟩

end Fit

end Words

section Union
variable {p : Llmsset.Params} {t : Llmsset.Tid} {mask : OperationCache.Word} {s : State (NodeTable p t) (BddCache mask)} {a b : Edge}

/-- Over the tables in memory the union task returns the only edge of the union, in a table that the
worker's lookups of the nodes it needs lead to, unless one of these fails on an exhausted table. -/
theorem union_of_words (cached : CacheCorrect s) (first : Represents s a f) (second : Represents s b g) (granularity : Int) :
    ∃ enough, ∀ fuel, enough ≤ fuel →
      EndsUnless (Stuck (Needed (fun σ => !f σ) fun σ => !g σ) s.table) (combineTask (sylvanAndNogcAlone granularity fuel) a b s) fun x =>
        Canonical x.2 x.1 (fun σ => f σ || g σ) ∧ CacheCorrect x.2 ∧
          Worked (Needed (fun σ => !f σ) fun σ => !g σ) s.table x.2.table := by
  have fit (x : NodeTable p t) (n : Node) := Needed.fits (x := x) (n := n) first.bounded.not second.bounded.not
  obtain ⟨ha,v,first⟩ := first
  obtain ⟨hb,w,second⟩ := second
  refine ⟨ha + hb + 1,fun fuel enough => ?_⟩
  have builds := combineTask_builds granularity cached first second enough
  refine EndsUnless.imp builds (NoRoom.stuck fit) fun x computes => ?_
  exact ⟨computes.canonical,computes.cached,computes.grown.worked fit⟩

end Union

/-- Two lookups of one worker, for the nodes of the first two variables. -/
def twoNodes : List Llmsset.Act :=
  (.call 0 (mtbddnodeMakenode ⟨0,0,sylvanTrue⟩) :: List.replicate 9 (.run 0)) ++
    (.call 0 (mtbddnodeMakenode ⟨1,0,sylvanTrue⟩) :: List.replicate 10 (.run 0))

/-- What they leave. -/
def afterTwo : Llmsset.State := replay (Llmsset.State.perform Llmsset.twoRegions) .fresh twoNodes

theorem afterTwo_within : Llmsset.Within Llmsset.twoRegions afterTwo := by
  have run := run_replay (Llmsset.step_perform Llmsset.twoRegions)
    (show feasible Llmsset.State.enabled _ .fresh twoNodes = true by decide)
  have near : Llmsset.Near Llmsset.twoRegions Llmsset.State.fresh.dbs := fun q k here => by cases here
  exact run.invariant (Llmsset.Within Llmsset.twoRegions) (fun _ _ _ => Llmsset.Within.step)
    (Llmsset.State.fresh_initial.within near)

def twoNodesTable : Llmsset.Table Llmsset.twoRegions :=
  ⟨afterTwo.dbs,afterTwo.myRegion,Llmsset.Table.forget afterTwo_within.watched.inv,afterTwo_within.near⟩

def twoNodesState : State (NodeTable Llmsset.twoRegions 0) (BddCache 0xfff) := ⟨⟨twoNodesTable⟩,.empty⟩

theorem twoNodes_stored (i : Nat) (few : i < 2) : nodes twoNodesState.table (i + 2) = some ⟨i,0,sylvanTrue⟩ := by
  obtain rfl | rfl : i = 0 ∨ i = 1 := by omega
  · exact NodeTable.nodes_eq_some.mpr ⟨⟨⟨805,by decide,by decide⟩,by decide⟩,by decide⟩
  · exact NodeTable.nodes_eq_some.mpr ⟨⟨⟨806,by decide,by decide⟩,by decide⟩,by decide⟩

theorem twoNodes_represent (i : Nat) (few : i < 2) : Represents twoNodesState ⟨false,i + 2⟩ fun σ => σ i := by
  have zero : Diagram.Denotes (nodes twoNodesState.table) 0 (i + 1) 0 fun _ => false := .leaf
  refine ⟨1,i,_,.node (Nat.succ_ne_zero (i + 1)) (twoNodes_stored i few) (Nat.le_refl i) (by simp [sylvanTrue]) zero zero,?_⟩
  simp [sylvanTrue]

/-- A third lookup takes the next data bucket. -/
theorem twoNodes_room : (lookup twoNodesState.table ⟨0,3,sylvanTrue⟩).1 = 4 := by
  have run := run_replay (Llmsset.step_perform Llmsset.twoRegions)
    (show feasible Llmsset.State.enabled _ twoNodesTable.state
      (.call 0 (mtbddnodeMakenode ⟨0,3,sylvanTrue⟩) :: List.replicate 13 (.run 0)) = true by decide)
  have looks := twoNodesState.table.lookup_looks (n := ⟨0,3,sylvanTrue⟩) (by decide)
  obtain ⟨created,log⟩ := looks.returned run (Llmsset.Pc.isIdle_iff.mp (by decide))
  have returned : ((replay (Llmsset.State.perform Llmsset.twoRegions) twoNodesTable.state
      (.call 0 (mtbddnodeMakenode ⟨0,3,sylvanTrue⟩) :: List.replicate 13 (.run 0))).log.map Llmsset.Return.idx) = [4] := by decide
  rw [log] at returned
  exact List.singleton_inj.mp returned

theorem union_of_words_twoNodes : ∃ enough, ∀ fuel, enough ≤ fuel → ∃ x,
    combineTask (sylvanAndNogcAlone 1 fuel) ⟨false,2⟩ ⟨false,3⟩ twoNodesState = .returned x ∧
      Canonical x.2 x.1 (fun σ => σ 0 || σ 1) ∧ CacheCorrect x.2 ∧
        Worked (Needed (fun σ => !σ 0) fun σ => !σ 1) twoNodesState.table x.2.table := by
  have empty : CacheCorrect twoNodesState := fun a b r hit => by
    cases (BddCache.get_empty a b).symm.trans hit
  have first := twoNodes_represent 0 (by decide)
  have second := twoNodes_represent 1 (by decide)
  obtain ⟨enough,ends⟩ := union_of_words empty first second 1
  refine ⟨enough + 1,fun fuel more => ?_⟩
  have unions := ends fuel (by omega)
  obtain ⟨fuel,rfl⟩ : ∃ k, fuel = k + 1 := ⟨fuel - 1,by omega⟩
  have returns : ∃ x, combineTask (sylvanAndNogcAlone 1 (fuel + 1)) ⟨false,2⟩ ⟨false,3⟩ twoNodesState = .returned x := by
    have node : getNode twoNodesState ⟨true,2⟩ = ⟨0,0,sylvanTrue⟩ := by simp [getNode,twoNodes_stored 0 (by decide)]
    have node' : getNode twoNodesState ⟨true,3⟩ = ⟨1,0,sylvanTrue⟩ := by simp [getNode,twoNodes_stored 1 (by decide)]
    have miss (a b : Edge) : OpCache.get twoNodesState.cache a b = none := BddCache.get_empty a b
    have room : (lookup twoNodesState.table ⟨0,3,⟨true,0⟩⟩).1 = 4 := twoNodes_room
    simp [combineTask,sylvanAndNogcAlone,sylvanAndWith,andNodes,node,node',miss,room,cofactors,andCofactor,mtbddMakenodeNogc,
      makenodeUnless,Edge.toggle,Edge.transfer,sylvanTrue,sylvanFalse]
  obtain ⟨x,returns⟩ := returns
  exact ⟨x,returns,unions.of_eq returns⟩

end Libdft.Sylvan
