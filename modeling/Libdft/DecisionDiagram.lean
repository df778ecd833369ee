import Mathlib.Logic.Function.Basic
import Mathlib.Tactic.Common

/-! Reduced ordered decision diagrams with complement edges, over any store of nodes. Node 0 is
the constant false; of the two edges of a node the low one has no mark. A diagram denotes a
Boolean function, and where equal nodes have equal indices an edge is determined by what it
denotes. -/
namespace Libdft.Diagram

/-- An edge to a node; a mark complements. -/
structure Edge where
  mark : Bool
  index : Nat
  deriving DecidableEq, Repr

theorem Edge.eq_unmarked {e : Edge} (unmarked : e.mark = false) (index : e.index = i) : e = ⟨false,i⟩ := by
  obtain ⟨mark,index⟩ := e
  simp_all

structure Node where
  var : Nat
  low : Nat
  high : Edge
  deriving DecidableEq, Repr

abbrev Nodes := Nat → Option Node
abbrev Assignment := Nat → Bool

/-- A node of at most the height, with variables from the level on. -/
inductive Denotes (nodes : Nodes) : (height level index : Nat) → (Assignment → Bool) → Prop where
  | leaf : Denotes nodes h v 0 fun _ => false
  | node : i ≠ 0 → nodes i = some n → v ≤ n.var → n.high ≠ ⟨false,n.low⟩ → Denotes nodes h (n.var + 1) n.low f →
      Denotes nodes h (n.var + 1) n.high.index g → Denotes nodes (h + 1) v i fun σ => if σ n.var then n.high.mark ^^ g σ else f σ

/-- Equal contents have equal indices. -/
def HashConsed (nodes : Nodes) : Prop := ∀ i j n, nodes i = some n → nodes j = some n → i = j

def Extends (nodes nodes' : Nodes) : Prop := ∀ i n, nodes i = some n → nodes' i = some n

theorem Extends.refl (nodes : Nodes) : Extends nodes nodes := fun _ _ => id

theorem Extends.trans {a b c : Nodes} (first : Extends a b) (second : Extends b c) : Extends a c :=
  fun i n here => second i n (first i n here)

/-- The function does not look at variables below the level. -/
def Independent (v : Nat) (f : Assignment → Bool) : Prop := ∀ σ σ', (∀ k, v ≤ k → σ k = σ' k) → f σ = f σ'

theorem Independent.mono {v w : Nat} (le : w ≤ v) (independent : Independent v f) : Independent w f :=
  fun σ σ' agree => independent σ σ' fun k above => agree k (Nat.le_trans le above)

theorem Independent.update {v : Nat} (independent : Independent (v + 1) f) (σ : Assignment) (b : Bool) :
    f (Function.update σ v b) = f σ :=
  independent _ _ fun _ above => Function.update_of_ne (Nat.ne_of_gt above) _ _

theorem Independent.xor {v : Nat} (independent : Independent v f) (mark : Bool) : Independent v fun σ => mark ^^ f σ :=
  fun σ σ' agree => congrArg (mark ^^ ·) (independent σ σ' agree)

theorem Independent.and {v : Nat} (first : Independent v f) (second : Independent v g) : Independent v fun σ => f σ && g σ :=
  fun σ σ' agree => congrArg₂ (· && ·) (first σ σ' agree) (second σ σ' agree)

namespace Denotes
variable {nodes nodes' : Nodes}

theorem extend (more : Extends nodes nodes') (denotes : Denotes nodes h v i f) : Denotes nodes' h v i f := by
  induction denotes with
  | leaf => exact .leaf
  | node some here above reduced _ _ low high => exact .node some (more _ _ here) above reduced low high

theorem lower (denotes : Denotes nodes h v i f) (le : w ≤ v) : Denotes nodes h w i f := by
  cases denotes with
  | leaf => exact .leaf
  | node some here above reduced low high => exact .node some here (Nat.le_trans le above) reduced low high

theorem higher (denotes : Denotes nodes h v i f) (le : h ≤ h') : Denotes nodes h' v i f := by
  induction denotes generalizing h' with
  | leaf => exact .leaf
  | node some here above reduced _ _ low high =>
    obtain ⟨h',rfl⟩ : ∃ k, h' = k + 1 := ⟨h' - 1,by omega⟩
    exact .node some here above reduced (low (by omega)) (high (by omega))

theorem unique (denotes : Denotes nodes h v i f) (denotes' : Denotes nodes h' v' i f') : f = f' := by
  induction denotes generalizing h' v' f' with
  | leaf =>
    cases denotes' with
    | leaf => rfl
    | node some => exact absurd rfl some
  | node some here above reduced _ _ low high =>
    cases denotes' with
    | leaf => exact absurd rfl some
    | node some' here' above' reduced' low' high' =>
      obtain rfl := Option.some.inj (here.symm.trans here')
      rw [low low',high high']

theorem at_false (denotes : Denotes nodes h v i f) : f (fun _ => false) = false := by
  induction denotes with
  | leaf => rfl
  | node _ _ _ _ _ _ low _ => simpa using low

theorem independent (denotes : Denotes nodes h v i f) : Independent v f := by
  induction denotes with
  | leaf => exact fun _ _ _ => rfl
  | node some here above reduced _ _ low high =>
    intro σ σ' agree
    have lows := low σ σ' fun k deeper => agree k (by omega)
    have highs := high σ σ' fun k deeper => agree k (by omega)
    simp only [agree _ above,lows,highs]

end Denotes

/-! Canonicity. -/

/-- What a function that does not look at the variable says of the two branches at it. -/
theorem branches_of_independent {v : Nat} {mark : Bool} (low : Independent (v + 1) f) (high : Independent (v + 1) g)
    (whole : Independent (v + 1) fun σ => if σ v then mark ^^ g σ else f σ) :
    f = (fun σ => if σ v then mark ^^ g σ else f σ) ∧ (fun σ => mark ^^ g σ) = fun σ => if σ v then mark ^^ g σ else f σ := by
  constructor
  · funext σ
    rw [← whole.update σ false]
    simp [low.update]
  · funext σ
    rw [← whole.update σ true]
    simp [high.update]

/-- Two functions that branch at one variable are equal if their branches are. -/
theorem branches_of_eq {v : Nat} {mark mark' : Bool} (low : Independent (v + 1) f) (high : Independent (v + 1) g)
    (low' : Independent (v + 1) f') (high' : Independent (v + 1) g')
    (same : (fun σ : Assignment => if σ v then mark ^^ g σ else f σ) = fun σ => if σ v then mark' ^^ g' σ else f' σ) :
    f = f' ∧ (fun σ => mark ^^ g σ) = fun σ => mark' ^^ g' σ := by
  constructor
  · funext σ
    have branch := congrFun same (Function.update σ v false)
    simpa [low.update,low'.update] using branch
  · funext σ
    have branch := congrFun same (Function.update σ v true)
    simpa [high.update,high'.update] using branch

/-- A mark shows where all variables are false. -/
theorem mark_of_eq {mark mark' : Bool} {g g' : Assignment → Bool} (zero : g (fun _ => false) = false) (zero' : g' (fun _ => false) = false)
    (same : (fun σ : Assignment => mark ^^ g σ) = fun σ => mark' ^^ g' σ) : mark = mark' ∧ g = g' := by
  have marks : mark = mark' := by simpa [zero,zero'] using congrFun same fun _ => false
  subst marks
  exact ⟨rfl,funext fun σ => by simpa using congrFun same σ⟩

section Canonical
variable {nodes : Nodes}

/-- A node whose function does not look at its variable would have two equal edges. -/
theorem reduced_of_equal {n : Node} {F : Assignment → Bool} (reduced : n.high ≠ ⟨false,n.low⟩)
    (low : Denotes nodes h (n.var + 1) n.low f) (high : Denotes nodes h (n.var + 1) n.high.index g)
    (whole : (fun σ => if σ n.var then n.high.mark ^^ g σ else f σ) = F) (independent : Independent (n.var + 1) F)
    (zero : F (fun _ => false) = false) (equal : f = F → g = F → n.high.index = n.low) : False := by
  obtain ⟨lows,highs⟩ := branches_of_independent low.independent high.independent (whole ▸ independent)
  rw [whole] at lows highs
  have unmarked : F = fun σ => false ^^ F σ := by simp
  obtain ⟨mark,same⟩ := mark_of_eq high.at_false zero (highs.trans unmarked)
  exact reduced (Edge.eq_unmarked mark (equal lows same))

variable (hashed : HashConsed nodes)
include hashed

/-- Equal functions have equal nodes. -/
theorem canonical (denotes : Denotes nodes h v i f) (denotes' : Denotes nodes h' v' j f') (same : f = f') : i = j := by
  induction denotes generalizing h' v' j f' with
  | leaf =>
    induction denotes' with
    | leaf => rfl
    | node _ _ _ reduced low high ihLow ihHigh =>
      exact (reduced_of_equal reduced low high same.symm (fun _ _ _ => rfl) rfl fun lows highs =>
        (ihHigh highs.symm).symm.trans (ihLow lows.symm)).elim
  | @node i n v h f g some here above reduced low high ihLow ihHigh =>
    induction denotes' with
    | leaf =>
      have zero : Denotes nodes 0 0 0 fun _ => false := .leaf
      exact (reduced_of_equal reduced low high same (fun _ _ _ => rfl) rfl fun lows highs =>
        (ihHigh zero highs).trans (ihLow zero lows).symm).elim
    | @node j m v' h' f' g' some' here' above' reduced' low' high' ihLow' ihHigh' =>
      have whole := Denotes.node some here above reduced low high
      have whole' := Denotes.node some' here' above' reduced' low' high'
      rcases Nat.lt_trichotomy n.var m.var with less | equal | greater
      · have independent := (Denotes.node some' here' (Nat.le_refl _) reduced' low' high').independent.mono less
        exact (reduced_of_equal reduced low high same independent whole'.at_false fun lows highs =>
          (ihHigh whole' highs).trans (ihLow whole' lows).symm).elim
      · obtain ⟨var,lo,hi⟩ := n
        obtain ⟨var',lo',hi'⟩ := m
        obtain rfl : var = var' := equal
        obtain ⟨lows,highs⟩ := branches_of_eq low.independent high.independent low'.independent high'.independent same
        obtain ⟨mark,highs⟩ := mark_of_eq high.at_false high'.at_false highs
        have loEq : lo = lo' := ihLow low' lows
        have hiEq : hi = hi' := by
          have index : hi.index = hi'.index := ihHigh high' highs
          cases hi
          cases hi'
          simp_all
        subst loEq hiEq
        exact hashed _ _ _ here here'
      · have independent := (Denotes.node some here (Nat.le_refl _) reduced low high).independent.mono greater
        exact (reduced_of_equal reduced' low' high' same.symm independent whole.at_false fun lows highs =>
          (ihHigh' highs.symm).symm.trans (ihLow' lows.symm)).elim

/-- A node is as deep as its function allows. -/
theorem Denotes.deepen (denotes : Denotes nodes h v i f) (independent : Independent w f) : Denotes nodes h w i f := by
  cases denotes with
  | leaf => exact .leaf
  | node some here above reduced low high =>
    refine .node some here (Nat.le_of_not_lt fun shallow => ?_) reduced low high
    exact reduced_of_equal reduced low high rfl (independent.mono shallow) (Denotes.node some here above reduced low high).at_false
      fun lows highs => canonical hashed high low (highs.trans lows.symm)

end Canonical

/-! Edges. -/

namespace Edge

def toggle (e : Edge) : Edge := ⟨!e.mark,e.index⟩

/-- Complements a target where the edge followed has a mark. -/
def transfer (e target : Edge) : Edge := ⟨e.mark ^^ target.mark,target.index⟩

def Denotes (nodes : Nodes) (h v : Nat) (e : Edge) (f : Assignment → Bool) : Prop :=
  ∃ g, Diagram.Denotes nodes h v e.index g ∧ f = fun σ => e.mark ^^ g σ

namespace Denotes
variable {nodes nodes' : Nodes} {e e' : Edge}

theorem extend (more : Extends nodes nodes') (denotes : e.Denotes nodes h v f) : e.Denotes nodes' h v f := by
  obtain ⟨g,node,rfl⟩ := denotes
  exact ⟨g,node.extend more,rfl⟩

theorem higher (denotes : e.Denotes nodes h v f) (le : h ≤ h') : e.Denotes nodes h' v f := by
  obtain ⟨g,node,rfl⟩ := denotes
  exact ⟨g,node.higher le,rfl⟩

theorem lower (denotes : e.Denotes nodes h v f) (le : w ≤ v) : e.Denotes nodes h w f := by
  obtain ⟨g,node,rfl⟩ := denotes
  exact ⟨g,node.lower le,rfl⟩

theorem unique (denotes : e.Denotes nodes h v f) (denotes' : e.Denotes nodes h' v' f') : f = f' := by
  obtain ⟨g,node,rfl⟩ := denotes
  obtain ⟨g',node',rfl⟩ := denotes'
  rw [node.unique node']

theorem independent (denotes : e.Denotes nodes h v f) : Independent v f := by
  obtain ⟨g,node,rfl⟩ := denotes
  exact node.independent.xor e.mark

theorem toggle (denotes : e.Denotes nodes h v f) : e.toggle.Denotes nodes h v fun σ => !f σ := by
  obtain ⟨g,node,rfl⟩ := denotes
  exact ⟨g,node,funext fun σ => by simp [Edge.toggle]⟩

theorem constant (nodes : Nodes) (h v : Nat) (b : Bool) : Edge.Denotes nodes h v ⟨b,0⟩ fun _ => b :=
  ⟨_,.leaf,funext fun σ => by simp⟩

theorem deepen (hashed : HashConsed nodes) (denotes : e.Denotes nodes h v f) (independent : Independent w f) :
    e.Denotes nodes h w f := by
  obtain ⟨g,node,rfl⟩ := denotes
  have bare : g = fun σ => e.mark ^^ (e.mark ^^ g σ) := funext fun σ => by simp
  exact ⟨g,node.deepen hashed (bare ▸ independent.xor e.mark),rfl⟩

/-- Equal functions have equal edges. -/
theorem canonical (hashed : HashConsed nodes) (denotes : e.Denotes nodes h v f) (denotes' : e'.Denotes nodes h' v' f) :
    e = e' := by
  obtain ⟨g,node,rfl⟩ := denotes
  obtain ⟨g',node',same⟩ := denotes'
  obtain ⟨mark,same⟩ := mark_of_eq node.at_false node'.at_false same
  have index := Diagram.canonical hashed node node' same
  cases e
  cases e'
  simp_all

theorem height (denotes : e.Denotes nodes h v f) (some : e.index ≠ 0) : ∃ k, h = k + 1 := by
  obtain ⟨mark,index⟩ := e
  obtain ⟨g,node,rfl⟩ := denotes
  cases node with
  | leaf => exact absurd rfl some
  | node => exact ⟨_,rfl⟩

/-- The two edges that an edge to a node branches to. -/
theorem branches (denotes : e.Denotes nodes (h + 1) v f) (some : e.index ≠ 0) :
    ∃ n fl fh, nodes e.index = Option.some n ∧ e.Denotes nodes (h + 1) n.var f ∧
      (e.transfer ⟨false,n.low⟩).Denotes nodes h (n.var + 1) fl ∧ (e.transfer n.high).Denotes nodes h (n.var + 1) fh ∧
      f = fun σ => if σ n.var then fh σ else fl σ := by
  obtain ⟨mark,index⟩ := e
  obtain ⟨g,node,rfl⟩ := denotes
  cases node with
  | leaf => exact absurd rfl some
  | node _ here above reduced low high =>
    refine ⟨_,_,_,here,⟨_,.node some here (Nat.le_refl _) reduced low high,rfl⟩,⟨_,low,rfl⟩,⟨_,high,rfl⟩,funext fun σ => ?_⟩
    simp only [transfer,Bool.xor_false,Bool.xor_assoc]
    split <;> rfl

/-- The high edge of a node over two different edges, once the low one has lost its mark. -/
theorem reduced {low high : Edge} (differ : low ≠ high) : (⟨low.mark ^^ high.mark,high.index⟩ : Edge) ≠ ⟨false,low.index⟩ := by
  intro same
  obtain ⟨m,k⟩ := low
  obtain ⟨m',k'⟩ := high
  simp_all

/-- An edge to a node that branches to two different edges; a mark on the low one is moved to the edge itself. -/
theorem branch {low high : Edge} (some : i ≠ 0) (here : nodes i = Option.some ⟨v,low.index,⟨low.mark ^^ high.mark,high.index⟩⟩)
    (differ : low ≠ high) (lows : low.Denotes nodes h (v + 1) fl) (highs : high.Denotes nodes h (v + 1) fh) :
    Edge.Denotes nodes (h + 1) v ⟨low.mark,i⟩ fun σ => if σ v then fh σ else fl σ := by
  obtain ⟨g,low',rfl⟩ := lows
  obtain ⟨g',high',rfl⟩ := highs
  refine ⟨_,.node some here (Nat.le_refl v) (reduced differ) low' high',funext fun σ => ?_⟩
  dsimp only
  split <;> simp

end Denotes

end Edge

/-! Branches, and the nodes over them. -/

/-- The function branches at the variable. -/
structure Branches (v : Nat) (f fl fh : Assignment → Bool) : Prop where
  whole : f = fun σ => if σ v then fh σ else fl σ
  low : Independent (v + 1) fl
  high : Independent (v + 1) fh

/-- A node of this content would be one of the function, up to a mark. -/
def Forms (nodes : Nodes) (n : Node) (f : Assignment → Bool) : Prop :=
  n.high ≠ ⟨false,n.low⟩ ∧ ∃ h fl fh mark, Denotes nodes h (n.var + 1) n.low fl ∧ Denotes nodes h (n.var + 1) n.high.index fh ∧
    f = fun σ => mark ^^ (if σ n.var then n.high.mark ^^ fh σ else fl σ)

/-- The node over two different edges. -/
theorem Edge.Denotes.forms {nodes : Nodes} {low high : Edge} (differ : low ≠ high) (lows : low.Denotes nodes h (v + 1) fl)
    (highs : high.Denotes nodes h (v + 1) fh) :
    Forms nodes ⟨v,low.index,⟨low.mark ^^ high.mark,high.index⟩⟩ fun σ => if σ v then fh σ else fl σ := by
  obtain ⟨g,low',rfl⟩ := lows
  obtain ⟨g',high',rfl⟩ := highs
  refine ⟨reduced differ,h,g,g',low.mark,low',high',funext fun σ => ?_⟩
  dsimp only
  split <;> simp

/-- The function looks only at variables below the bound. -/
def Bounded (b : Nat) (f : Assignment → Bool) : Prop := ∀ σ σ', (∀ k, k < b → σ k = σ' k) → f σ = f σ'

namespace Bounded

theorem not (bounded : Bounded b f) : Bounded b fun σ => !f σ := fun σ σ' agree => congrArg (!·) (bounded σ σ' agree)

theorem and (first : Bounded b f) (second : Bounded b g) : Bounded b fun σ => f σ && g σ :=
  fun σ σ' agree => congrArg₂ (· && ·) (first σ σ' agree) (second σ σ' agree)

theorem update (bounded : Bounded b f) (σ : Assignment) {v : Nat} (above : b ≤ v) (c : Bool) : f (Function.update σ v c) = f σ :=
  bounded _ _ fun _ below => Function.update_of_ne (Nat.ne_of_lt (Nat.lt_of_lt_of_le below above)) _ _

/-- The branch is what the function is where the variable has the value. -/
theorem of_update (bounded : Bounded b f) (v : Nat) (c : Bool) (branch : ∀ σ, f' σ = f (Function.update σ v c)) : Bounded b f' := by
  intro σ σ' agree
  rw [branch,branch]
  refine bounded _ _ fun k below => ?_
  by_cases same : k = v
  · rw [same,Function.update_self,Function.update_self]
  · rw [Function.update_of_ne same,Function.update_of_ne same]
    exact agree k below

end Bounded

namespace Branches
variable {v : Nat} {f fl fh : Assignment → Bool} (branches : Branches v f fl fh)
include branches

theorem low_bounded (bounded : Bounded b f) : Bounded b fl := by
  refine bounded.of_update v false fun σ => ?_
  rw [branches.whole]
  simp [branches.low.update]

theorem high_bounded (bounded : Bounded b f) : Bounded b fh := by
  refine bounded.of_update v true fun σ => ?_
  rw [branches.whole]
  simp [branches.high.update]

end Branches

theorem Denotes.bounded {nodes : Nodes} (small : ∀ i n, nodes i = some n → n.var < b) (denotes : Denotes nodes h v i f) : Bounded b f := by
  induction denotes with
  | leaf => exact fun _ _ _ => rfl
  | node _ here _ _ _ _ low high =>
    intro σ σ' agree
    simp only [agree _ (small _ _ here),low σ σ' agree,high σ σ' agree]

/-- A node of a bounded function is within the bound, since its two edges differ. -/
theorem Forms.var_lt {nodes : Nodes} {n : Node} (hashed : HashConsed nodes) (forms : Forms nodes n f) (bounded : Bounded b f) :
    n.var < b := by
  obtain ⟨reduced,h,fl,fh,mark,low,high,rfl⟩ := forms
  by_contra outside
  have above : b ≤ n.var := Nat.le_of_not_lt outside
  have equal : (fun σ => n.high.mark ^^ fh σ) = fun σ => false ^^ fl σ := by
    funext σ
    have same := (bounded.update σ above true).trans (bounded.update σ above false).symm
    simpa [low.independent.update,high.independent.update] using same
  obtain ⟨unmarked,rfl⟩ := mark_of_eq high.at_false low.at_false equal
  exact reduced (Edge.eq_unmarked unmarked (canonical hashed high low rfl))

end Libdft.Diagram
