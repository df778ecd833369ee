import Libdft.SylvanAnd
import Mathlib.Data.List.Nodup
import Mathlib.Logic.Relation

/-! What the conjunction computes, and the union that the tag workers take from it. Until a
collection begins or the table is full, both variants do the same. -/
namespace Libdft.Sylvan

open Diagram
open UniqueTable (nodes lookup)

variable {Θ C : Type} [UniqueTable Θ]

/-- Operands that the conjunction of two functions comes to: it takes the same branch of both. -/
inductive Comes : (f g f' g' : Assignment → Bool) → Prop where
  | here : Comes f g f g
  | low : Branches v f fl fh → Branches v g gl gh → Comes fl gl f' g' → Comes f g f' g'
  | high : Branches v f fl fh → Branches v g gl gh → Comes fh gh f' g' → Comes f g f' g'

/-- A node that the conjunction needs: one of the conjunction of operands it comes to. -/
def Needed (f g : Assignment → Bool) (nodes : Nodes) (n : Node) : Prop :=
  ∃ f' g', Comes f g f' g' ∧ Forms nodes n fun σ => f' σ && g' σ

theorem Comes.comm (comes : Comes f g f' g') : Comes g f g' f' := by
  induction comes with
  | here => exact .here
  | low first second _ ih => exact .low second first ih
  | high first second _ ih => exact .high second first ih

namespace Needed
variable {nodes : Nodes} {n : Node}

theorem here (forms : Forms nodes n fun σ => f σ && g σ) : Needed f g nodes n := ⟨f,g,.here,forms⟩

theorem comm (needed : Needed f g nodes n) : Needed g f nodes n := by
  obtain ⟨f',g',comes,forms⟩ := needed
  have swapped : (fun σ => f' σ && g' σ) = fun σ => g' σ && f' σ := funext fun σ => Bool.and_comm _ _
  exact ⟨g',f',comes.comm,swapped ▸ forms⟩

theorem low (first : Branches v f fl fh) (second : Branches v g gl gh) (needed : Needed fl gl nodes n) : Needed f g nodes n := by
  obtain ⟨f',g',comes,forms⟩ := needed
  exact ⟨f',g',.low first second comes,forms⟩

theorem high (first : Branches v f fl fh) (second : Branches v g gl gh) (needed : Needed fh gh nodes n) : Needed f g nodes n := by
  obtain ⟨f',g',comes,forms⟩ := needed
  exact ⟨f',g',.high first second comes,forms⟩

end Needed

section Room
variable {needs needs' : Nodes → Node → Prop}

/-- The table after lookups of needed nodes that found room. -/
def Grown (needs : Nodes → Node → Prop) (t t' : Θ) : Prop :=
  Relation.ReflTransGen (fun t t' => ∃ n, needs (nodes t) n ∧ (lookup t n).1 ≠ 0 ∧ t' = (lookup t n).2) t t'

/-- After such lookups there is a needed node that finds no room. -/
def NoRoom (needs : Nodes → Node → Prop) (t : Θ) : Prop := ∃ t', Grown needs t t' ∧ ∃ n, needs (nodes t') n ∧ (lookup t' n).1 = 0

theorem Grown.extends {t t' : Θ} (grown : Grown needs t t') : Extends (nodes t) (nodes t') := by
  induction grown with
  | refl => exact .refl _
  | tail _ step ih =>
    obtain ⟨n,_,_,rfl⟩ := step
    exact ih.trans (UniqueTable.lookup_extends _ n)

theorem Grown.refl (t : Θ) : Grown needs t t := Relation.ReflTransGen.refl

theorem Grown.trans {a b c : Θ} (first : Grown needs a b) (second : Grown needs b c) : Grown needs a c :=
  Relation.ReflTransGen.trans first second

theorem Grown.mono {t t' : Θ} (more : ∀ nodes n, needs nodes n → needs' nodes n) (grown : Grown needs t t') : Grown needs' t t' := by
  refine Relation.ReflTransGen.mono ?_ t t' grown
  rintro a b ⟨n,needed,room⟩
  exact ⟨n,more _ n needed,room⟩

theorem NoRoom.grown {t t' : Θ} (grown : Grown needs t t') (full : NoRoom needs t') : NoRoom needs t := by
  obtain ⟨last,after,no⟩ := full
  exact ⟨last,grown.trans after,no⟩

theorem NoRoom.mono {t : Θ} (more : ∀ nodes n, needs nodes n → needs' nodes n) (full : NoRoom needs t) : NoRoom needs' t := by
  obtain ⟨last,after,n,needed,no⟩ := full
  exact ⟨last,after.mono more,n,more _ n needed,no⟩

end Room

theorem hashConsed (t : Θ) : HashConsed (nodes t) := by
  intro i j n here there
  have some : ∀ {k}, nodes t k = some n → k ≠ 0 := by
    rintro _ stored rfl
    simp [UniqueTable.nodes_zero] at stored
  have found := UniqueTable.lookup_found t n i here (some here)
  have found' := UniqueTable.lookup_found t n j there (some there)
  exact congrArg Prod.fst (found.symm.trans found')

/-- The call returns, or stops the process under the condition. -/
def EndsUnless (full : Prop) (x : Outcome α) (post : α → Prop) : Prop := (∃ a, x = .returned a ∧ post a) ∨ x = .trapped ∧ full

namespace EndsUnless
variable {full : Prop}

theorem returned {post : α → Prop} (holds : post a) : EndsUnless full (.returned a) post := .inl ⟨a,rfl,holds⟩

theorem bind {x : Outcome α} {k : α → Outcome β} {middle : α → Prop} {post : β → Prop} (first : EndsUnless full x middle)
    (second : ∀ a, middle a → EndsUnless full (k a) post) : EndsUnless full (x >>= k) post := by
  rcases first with ⟨a,rfl,holds⟩ | ⟨rfl,stops⟩
  · exact second a holds
  · exact .inr ⟨rfl,stops⟩

theorem imp {x : Outcome α} {post weaker : α → Prop} {full' : Prop} (ends : EndsUnless full x post) (wider : full → full')
    (weaken : ∀ a, post a → weaker a) : EndsUnless full' x weaker := by
  rcases ends with ⟨a,returns,holds⟩ | ⟨stopped,stops⟩
  · exact .inl ⟨a,returns,weaken a holds⟩
  · exact .inr ⟨stopped,wider stops⟩

theorem of_eq {x : Outcome α} {post : α → Prop} (ends : EndsUnless full x post) (returns : x = .returned a) : post a := by
  subst returns
  rcases ends with ⟨_,⟨⟩,holds⟩ | ⟨⟨⟩,_⟩
  exact holds

end EndsUnless

/-- A well-formed diagram of the function. -/
def Represents (s : State Θ C) (e : Edge) (f : Assignment → Bool) : Prop := ∃ h v, e.Denotes (nodes s.table) h v f

/-- The only edge of the table for the function. -/
def Canonical (s : State Θ C) (e : Edge) (f : Assignment → Bool) : Prop := Represents s e f ∧ ∀ e', Represents s e' f → e' = e

theorem Represents.unique {s : State Θ C} {e : Edge} (first : Represents s e f) (second : Represents s e g) : f = g := by
  obtain ⟨_,_,denotes⟩ := first
  obtain ⟨_,_,denotes'⟩ := second
  exact denotes.unique denotes'

theorem Represents.extend {s s' : State Θ C} {e : Edge} (represents : Represents s e f)
    (more : Extends (nodes s.table) (nodes s'.table)) : Represents s' e f := by
  obtain ⟨h,v,denotes⟩ := represents
  exact ⟨h,v,denotes.extend more⟩

theorem Represents.toggle {s : State Θ C} {e : Edge} (represents : Represents s e f) : Represents s e.toggle fun σ => !f σ := by
  obtain ⟨h,v,denotes⟩ := represents
  exact ⟨h,v,denotes.toggle⟩

theorem Represents.constant (s : State Θ C) (b : Bool) : Represents s ⟨b,0⟩ fun _ => b := ⟨0,0,.constant _ _ _ b⟩

theorem Represents.canonical {s : State Θ C} {e : Edge} (represents : Represents s e f) : Canonical s e f := by
  obtain ⟨h,v,denotes⟩ := represents
  refine ⟨⟨h,v,denotes⟩,?_⟩
  rintro e' ⟨h',v',denotes'⟩
  exact denotes'.canonical (hashConsed s.table) denotes

/-- An edge of a function that does not look above the level denotes it there. -/
theorem Represents.level {s : State Θ C} {e : Edge} (represents : Represents s e f) (independent : Independent v f) :
    ∃ h, e.Denotes (nodes s.table) h v f := by
  obtain ⟨h,_,denotes⟩ := represents
  exact ⟨h,denotes.deepen (hashConsed s.table) independent⟩

/-- An edge to a node, and what it branches to at a level that is not below the node. -/
theorem cofactors_denote {s : State Θ C} {e : Edge} (level : Nat) (some : e.index ≠ 0) (denotes : e.Denotes (nodes s.table) h v f)
    (above : level ≤ (getNode s e).var) :
    ∃ k fl fh, (cofactors e (getNode s e) level).1.Denotes (nodes s.table) k (level + 1) fl ∧
      (cofactors e (getNode s e) level).2.Denotes (nodes s.table) k (level + 1) fh ∧
      Branches level f fl fh ∧ k ≤ h ∧ (level = (getNode s e).var → k < h) := by
  obtain ⟨h,rfl⟩ : ∃ k, h = k + 1 := denotes.height some
  obtain ⟨n,fl,fh,here,whole,low,high,branch⟩ := denotes.branches some
  have got : getNode s e = n := by simp [getNode,here]
  rw [got] at above ⊢
  unfold cofactors
  split
  case isTrue equal =>
    subst equal
    exact ⟨h,fl,fh,low,high,⟨branch,low.independent,high.independent⟩,Nat.le_succ h,fun _ => Nat.lt_succ_self h⟩
  case isFalse differ =>
    have deeper := whole.lower (Nat.lt_of_le_of_ne above differ)
    have same : Branches level f f f := ⟨by simp,deeper.independent,deeper.independent⟩
    exact ⟨h + 1,f,f,deeper,deeper,same,Nat.le_refl _,fun equal => absurd equal differ⟩

variable [OpCache C]

/-- Every entry is a conjunction. -/
def CacheCorrect (s : State Θ C) : Prop :=
  ∀ a b r, OpCache.get s.cache a b = some r → ∃ f g, Represents s a f ∧ Represents s b g ∧ Represents s r fun σ => f σ && g σ

theorem CacheCorrect.extend {s s' : State Θ C} (cached : CacheCorrect s) (more : Extends (nodes s.table) (nodes s'.table))
    (same : s'.cache = s.cache) : CacheCorrect s' := by
  intro a b r hit
  obtain ⟨f,g,first,second,both⟩ := cached a b r (same ▸ hit)
  exact ⟨f,g,first.extend more,second.extend more,both.extend more⟩

theorem CacheCorrect.put {s : State Θ C} {a b r : Edge} (cached : CacheCorrect s) (first : Represents s a f) (second : Represents s b g)
    (both : Represents s r fun σ => f σ && g σ) : CacheCorrect { s with cache := OpCache.put s.cache a b r } := by
  intro a' b' x hit
  rcases OpCache.get_put s.cache a b r a' b' x hit with ⟨rfl,rfl,rfl⟩ | kept
  · exact ⟨f,g,first,second,both⟩
  · exact cached a' b' x kept

/-- What a call leaves that returns the edge of a function. -/
structure Computes (needs : Nodes → Node → Prop) (s : State Θ C) (f : Assignment → Bool) (x : Edge × State Θ C) : Prop where
  grown : Grown needs s.table x.2.table
  cached : CacheCorrect x.2
  canonical : Canonical x.2 x.1 f

section Builds
variable {needs needs' : Nodes → Node → Prop}

/-- No node was made. -/
theorem Computes.here {s : State Θ C} {e : Edge} (cached : CacheCorrect s) (represents : Represents s e f) :
    Computes needs s f (e, s) :=
  ⟨.refl _,cached,represents.canonical⟩

/-- The call returns the edge of the function, unless there is no room for a node that it needs. -/
def Builds (needs : Nodes → Node → Prop) (s : State Θ C) (f : Assignment → Bool) (x : Outcome (Edge × State Θ C)) : Prop :=
  EndsUnless (NoRoom needs s.table) x (Computes needs s f)

theorem Builds.here {s : State Θ C} {e : Edge} (cached : CacheCorrect s) (represents : Represents s e f) :
    Builds needs s f (.returned (e, s)) := .returned (.here cached represents)

theorem Builds.mono {s : State Θ C} {x : Outcome (Edge × State Θ C)} (more : ∀ nodes n, needs nodes n → needs' nodes n)
    (builds : Builds needs s f x) : Builds needs' s f x :=
  EndsUnless.imp builds (NoRoom.mono more) fun _ computes => ⟨computes.grown.mono more,computes.cached,computes.canonical⟩

/-- One call after another. -/
theorem Builds.andThen {s : State Θ C} {x : Outcome (Edge × State Θ C)} {k : Edge × State Θ C → Outcome (Edge × State Θ C)}
    (first : Builds needs s f x) (second : ∀ e s', Computes needs s f (e, s') → Builds needs s' g (k (e, s'))) :
    Builds needs s g (x >>= k) := by
  apply EndsUnless.bind first
  intro a computes
  refine EndsUnless.imp (second a.1 a.2 computes) (NoRoom.grown computes.grown) fun _ after => ?_
  exact ⟨computes.grown.trans after.grown,after.cached,after.canonical⟩

/-! One call. -/

theorem mtbddMakenodeNogc_builds {s : State Θ C} {low high : Edge} {v : Nat} (cached : CacheCorrect s)
    (lows : low.Denotes (nodes s.table) h (v + 1) fl) (highs : high.Denotes (nodes s.table) h (v + 1) fh)
    (needed : ∀ n, Forms (nodes s.table) n (fun σ => if σ v then fh σ else fl σ) → needs (nodes s.table) n) :
    Builds needs s (fun σ => if σ v then fh σ else fl σ) (mtbddMakenodeNogc v low high s) := by
  unfold mtbddMakenodeNogc
  split
  case isTrue equal =>
    subst equal
    obtain rfl := highs.unique lows
    refine .here cached ⟨h,v + 1,?_⟩
    simpa using lows
  case isFalse differ =>
    -- whatever the mark of the low edge, the node that is looked up has none there
    have content : (if low.mark then (low.toggle, high.toggle) else (low, high)) =
        (⟨false,low.index⟩, ⟨low.mark ^^ high.mark,high.index⟩) := by
      obtain ⟨mark,index⟩ := low
      cases mark <;> simp [Edge.toggle]
    simp only [makenodeUnless,content]
    have need := needed _ (lows.forms differ highs)
    generalize look : lookup s.table _ = found
    obtain ⟨index,table⟩ := found
    dsimp only
    by_cases full : index = 0
    · rw [if_pos full]
      exact .inr ⟨rfl,s.table,.refl _,_,need,by rw [look,full]⟩
    · rw [if_neg full]
      have room : (lookup s.table ⟨v,low.index,⟨low.mark ^^ high.mark,high.index⟩⟩).1 ≠ 0 := by rwa [look]
      have stored := UniqueTable.lookup_stored s.table _ room
      have grown : Grown needs s.table table := Relation.ReflTransGen.single ⟨_,need,room,by rw [look]⟩
      rw [look] at stored
      have made := Edge.Denotes.branch full stored differ (lows.extend grown.extends) (highs.extend grown.extends)
      exact .returned ⟨grown,cached.extend grown.extends rfl,Represents.canonical ⟨h + 1,v,made⟩⟩

/-- What holds of the recursive calls: they compute the conjunction of diagrams of less height. -/
def CallsBuild (call : Edge → Edge → State Θ C → Outcome (Edge × State Θ C)) (bound : Nat) : Prop :=
  ∀ s a b ha hb v w f g, CacheCorrect s → a.Denotes (nodes s.table) ha v f → b.Denotes (nodes s.table) hb w g → ha + hb < bound →
    Builds (Needed f g) s (fun σ => f σ && g σ) (call a b s)

/-- The shortcuts agree with the call. -/
theorem andCofactor_builds {s : State Θ C} {a b : Edge} {call : Edge → Edge → State Θ C → Outcome (Edge × State Θ C)}
    (calls : CallsBuild call bound) (cached : CacheCorrect s) (first : a.Denotes (nodes s.table) ha v f)
    (second : b.Denotes (nodes s.table) hb w g) (less : ha + hb < bound) :
    Builds (Needed f g) s (fun σ => f σ && g σ) (andCofactor call a b s) := by
  unfold andCofactor
  split
  case isTrue whole =>
    subst whole
    obtain rfl := first.unique (.constant _ 0 0 true)
    exact .here cached ⟨hb,w,by simpa using second⟩
  case isFalse =>
    split
    case isTrue empty =>
      have never : (fun σ => f σ && g σ) = fun _ => false := by
        rcases empty with rfl | rfl
        · obtain rfl := first.unique (.constant _ 0 0 false)
          simp
        · obtain rfl := second.unique (.constant _ 0 0 false)
          simp
      rw [never]
      exact .here cached (.constant s false)
    case isFalse =>
      split
      case isTrue whole =>
        subst whole
        obtain rfl := second.unique (.constant _ 0 0 true)
        exact .here cached ⟨ha,v,by simpa using first⟩
      case isFalse => exact calls s a b ha hb v w f g cached first second less

/-- Both halves, the node over them and the new entry of the cache. -/
theorem andNodes_builds {s : State Θ C} {a b : Edge} {call : Nat → Edge → Edge → State Θ C → Outcome (Edge × State Θ C)}
    (calls : ∀ level, CallsBuild (call level) (ha + hb)) (cached : CacheCorrect s) (some : a.index ≠ 0) (some' : b.index ≠ 0)
    (first : a.Denotes (nodes s.table) ha v f) (second : b.Denotes (nodes s.table) hb w g) :
    Builds (Needed f g) s (fun σ => f σ && g σ) (andNodes ⟨fun s => return s,mtbddMakenodeNogc⟩ granularity call a b prevLevel s) := by
  unfold andNodes
  dsimp only
  generalize eq : min (getNode s a).var (getNode s b).var = level
  split
  case h_1 r hit =>
    split at hit
    next =>
      obtain ⟨f',g',first',second',both⟩ := cached a b r hit
      obtain rfl := first'.unique ⟨ha,v,first⟩
      obtain rfl := second'.unique ⟨hb,w,second⟩
      exact .here cached both
    next => cases hit
  case h_2 =>
    obtain ⟨k,fl,fh,aLow,aHigh,branch,le,lt⟩ := cofactors_denote level some first (by omega)
    obtain ⟨k',gl,gh,bLow,bHigh,branch',le',lt'⟩ := cofactors_denote level some' second (by omega)
    have less : k + k' < ha + hb := by omega
    have highs := andCofactor_builds (calls level) cached aHigh bHigh less
    apply (highs.mono fun _ _ => Needed.high branch branch').andThen
    rintro high s₁ ⟨grown₁,cached₁,highs,_⟩
    have lows := andCofactor_builds (calls level) cached₁ (aLow.extend grown₁.extends) (bLow.extend grown₁.extends) less
    apply (lows.mono fun _ _ => Needed.low branch branch').andThen
    rintro low s₂ ⟨grown₂,cached₂,lows,_⟩
    obtain ⟨hl,lows⟩ := lows.level (branch.low.and branch'.low)
    obtain ⟨hh,highs⟩ := (highs.extend grown₂.extends).level (branch.high.and branch'.high)
    have whole : (fun σ => if σ level then fh σ && gh σ else fl σ && gl σ) = fun σ => f σ && g σ := by
      funext σ
      rw [branch.whole,branch'.whole]
      dsimp only
      split <;> rfl
    have need (n : Node) (forms : Forms (nodes s₂.table) n fun σ => if σ level then fh σ && gh σ else fl σ && gl σ) :
        Needed f g (nodes s₂.table) n := .here (whole ▸ forms)
    have made := mtbddMakenodeNogc_builds cached₂ (lows.higher (Nat.le_max_left hl hh)) (highs.higher (Nat.le_max_right hl hh)) need
    rw [whole] at made
    apply made.andThen
    rintro r s₃ ⟨grown₃,cached₃,both,_⟩
    have grown := (grown₁.extends.trans grown₂.extends).trans grown₃.extends
    apply EndsUnless.returned
    split
    next =>
      have put := cached₃.put ⟨ha,v,first.extend grown⟩ ⟨hb,w,second.extend grown⟩ both
      exact ⟨.refl _,put,both.canonical⟩
    next => exact ⟨.refl _,cached₃,both.canonical⟩

end Builds

theorem CallsBuild.mono {call : Edge → Edge → State Θ C → Outcome (Edge × State Θ C)} (calls : CallsBuild call bound) (le : less ≤ bound) :
    CallsBuild call less := by
  intro s a b ha hb v w f g cached first second below
  exact calls s a b ha hb v w f g cached first second (Nat.lt_of_lt_of_le below le)

theorem index_ne_zero {e : Edge} (notTrue : e ≠ sylvanTrue) (notFalse : e ≠ sylvanFalse) : e.index ≠ 0 := by
  rintro zero
  obtain ⟨mark,index⟩ := e
  obtain rfl : index = 0 := zero
  cases mark
  · exact notFalse rfl
  · exact notTrue rfl

/-- The terminal cases, the swap and the nodes: induction on the calls that are left. -/
theorem sylvanAndNogcAlone_builds (granularity : Int) (fuel prevLevel : Nat) :
    CallsBuild (fun a b (s : State Θ C) => sylvanAndNogcAlone granularity fuel a b prevLevel s) fuel := by
  induction fuel generalizing prevLevel with
  | zero => exact fun _ _ _ _ _ _ _ _ _ _ _ _ below => absurd below (Nat.not_lt_zero _)
  | succ fuel ih =>
    intro s a b ha hb v w f g cached first second below
    unfold sylvanAndNogcAlone sylvanAndWith
    by_cases aTrue : a = sylvanTrue
    · subst aTrue
      obtain rfl := first.unique (.constant _ 0 0 true)
      exact .here cached ⟨hb,w,by simpa using second⟩
    by_cases bTrue : b = sylvanTrue
    · subst bTrue
      obtain rfl := second.unique (.constant _ 0 0 true)
      simp only [if_neg aTrue,if_true]
      exact .here cached ⟨ha,v,by simpa using first⟩
    by_cases aFalse : a = sylvanFalse
    · subst aFalse
      obtain rfl := first.unique (.constant _ 0 0 false)
      simp only [if_neg aTrue,if_neg bTrue,if_true,Bool.false_and]
      exact .here cached (.constant s false)
    by_cases bFalse : b = sylvanFalse
    · subst bFalse
      obtain rfl := second.unique (.constant _ 0 0 false)
      simp only [if_neg aTrue,if_neg bTrue,if_neg aFalse,if_true,Bool.and_false]
      exact .here cached (.constant s false)
    by_cases equal : a = b
    · subst equal
      obtain rfl := first.unique second
      simp only [if_neg aTrue,if_neg aFalse,if_true,Bool.and_self]
      exact .here cached ⟨ha,v,first⟩
    by_cases opposite : a = b.toggle
    · obtain rfl := first.unique (opposite ▸ second.toggle)
      simp only [if_neg aTrue,if_neg bTrue,if_neg aFalse,if_neg bFalse,if_neg equal,if_pos opposite,Bool.not_and_self]
      exact .here cached (.constant s false)
    have some := index_ne_zero aTrue aFalse
    have some' := index_ne_zero bTrue bFalse
    simp only [if_neg aTrue,if_neg bTrue,if_neg aFalse,if_neg bFalse,if_neg equal,if_neg opposite,Outcome.pure_eq,Outcome.returned_bind]
    split
    · have swapped : (fun σ => f σ && g σ) = fun σ => g σ && f σ := funext fun σ => Bool.and_comm _ _
      rw [swapped]
      refine Builds.mono (fun _ _ => Needed.comm) ?_
      exact andNodes_builds (fun level => (ih level).mono (by omega)) cached some' some second first
    · exact andNodes_builds (fun level => (ih level).mono (by omega)) cached some some' first second

/-! The two variants. -/

/-- `sylvan_and_alone` where no collection happens: a run is cut off where one would begin. -/
def sylvanAndUncollected (granularity : Int) (fuel : Nat) (a b : Edge) (prevLevel : Nat) (s : State Θ C) : Outcome (Edge × State Θ C) :=
  sylvanAndAlone (fun s => return s) (fun _ => .trapped) granularity fuel a b prevLevel s

theorem uncollected_eq (granularity : Int) (fuel : Nat) (a b : Edge) (prevLevel : Nat) (s : State Θ C) :
    sylvanAndUncollected granularity fuel a b prevLevel s = sylvanAndNogcAlone granularity fuel a b prevLevel s := rfl

/-- What the one returns, the other returns. -/
def Follows (x y : Outcome α) : Prop := ∀ a, x = .returned a → y = .returned a

theorem Follows.bind {x y : Outcome α} {k l : α → Outcome β} (first : Follows x y) (second : ∀ a, Follows (k a) (l a)) :
    Follows (x >>= k) (y >>= l) := by
  intro b returns
  cases x with
  | returned a =>
    rw [first a rfl]
    exact second a b returns
  | trapped => cases returns
  | running => cases returns

theorem Follows.ite {p : Prop} [Decidable p] {x y x' y' : Outcome α} (yes : Follows x x') (no : Follows y y') :
    Follows (if p then x else y) (if p then x' else y') := by
  split
  · exact yes
  · exact no

theorem Follows.rfl {x : Outcome α} : Follows x x := fun _ => id

theorem mtbddMakenode_follows {Θ C : Type} [UniqueTable Θ] (gc : State Θ C → Outcome (State Θ C)) (var : Nat) (low high : Edge) (s : State Θ C) :
    Follows (mtbddMakenodeNogc var low high s) (mtbddMakenode gc var low high s) := by
  apply Follows.ite .rfl
  unfold makenodeUnless
  exact .ite (.bind nofun fun _ => .rfl) .rfl

theorem andCofactor_follows {Θ C : Type} {call call' : Edge → Edge → State Θ C → Outcome (Edge × State Θ C)}
    (calls : ∀ a b s, Follows (call a b s) (call' a b s)) (a b : Edge) (s : State Θ C) :
    Follows (andCofactor call a b s) (andCofactor call' a b s) :=
  .ite .rfl (.ite .rfl (.ite .rfl (calls a b s)))

theorem andNodes_follows {variant variant' : Variant Θ C} {call call' : Nat → Edge → Edge → State Θ C → Outcome (Edge × State Θ C)}
    (makes : ∀ var low high s, Follows (variant.makenode var low high s) (variant'.makenode var low high s))
    (calls : ∀ level a b s, Follows (call level a b s) (call' level a b s)) (granularity : Int) (a b : Edge) (prevLevel : Nat)
    (s : State Θ C) : Follows (andNodes variant granularity call a b prevLevel s) (andNodes variant' granularity call' a b prevLevel s) := by
  unfold andNodes
  dsimp only
  split
  case h_1 => exact .rfl
  case h_2 =>
    apply Follows.bind (andCofactor_follows (calls _) _ _ _)
    intro high
    apply Follows.bind (andCofactor_follows (calls _) _ _ _)
    intro low
    exact .bind (makes _ _ _ _) fun _ => .rfl

/-- A collection that does not begin makes no difference. -/
theorem sylvanAndAlone_follows (gc : State Θ C → Outcome (State Θ C)) (granularity : Int) (fuel : Nat) (a b : Edge) (prevLevel : Nat)
    (s : State Θ C) : Follows (sylvanAndNogcAlone granularity fuel a b prevLevel s)
      (sylvanAndAlone (fun s => return s) gc granularity fuel a b prevLevel s) := by
  induction fuel generalizing a b prevLevel s with
  | zero => exact nofun
  | succ fuel ih =>
    have calls := fun level a b s => ih a b level s
    unfold sylvanAndNogcAlone sylvanAndAlone sylvanAndWith
    refine .ite .rfl (.ite .rfl (.ite .rfl (.ite .rfl (.ite .rfl (.ite .rfl ?_)))))
    have makes (var : Nat) (low high : Edge) (s : State Θ C) := mtbddMakenode_follows gc var low high s
    exact .bind .rfl fun s => .ite (andNodes_follows makes calls _ _ _ _ _) (andNodes_follows makes calls _ _ _ _ _)

theorem combineTask_builds {s : State Θ C} {arg1 arg2 : Edge} (granularity : Int) (cached : CacheCorrect s)
    (first : arg1.Denotes (nodes s.table) ha v f) (second : arg2.Denotes (nodes s.table) hb w g) (enough : ha + hb < fuel) :
    Builds (Needed (fun σ => !f σ) fun σ => !g σ) s (fun σ => f σ || g σ) (combineTask (sylvanAndNogcAlone granularity fuel) arg1 arg2 s) := by
  have ands := sylvanAndNogcAlone_builds granularity fuel 0 s _ _ ha hb v w _ _ cached first.toggle second.toggle enough
  apply Builds.andThen ands
  rintro res s' ⟨_,cached',both,_⟩
  have union : (fun σ => !(!f σ && !g σ)) = fun σ => f σ || g σ := funext fun σ => by simp
  exact .here cached' (union ▸ both.toggle)

/-! A table of a fixed size, without hashing. -/

structure Buckets (size : Nat) where
  content : List Node
  distinct : content.Nodup

namespace Buckets
variable {size : Nat}

def nodes (t : Buckets size) (i : Nat) : Option Node := if i = 0 then none else t.content[i - 1]?

def lookup (t : Buckets size) (n : Node) : Nat × Buckets size :=
  if found : n ∈ t.content then (t.content.idxOf n + 1, t)
  else if t.content.length < size then
    (t.content.length + 1, ⟨t.content ++ [n],List.nodup_append.mpr ⟨t.distinct,by simp,by grind⟩⟩)
  else (0, t)

theorem lookup_stored (t : Buckets size) (n : Node) (room : (t.lookup n).1 ≠ 0) : (t.lookup n).2.nodes (t.lookup n).1 = some n := by
  by_cases found : n ∈ t.content
  · simp [lookup,nodes,found]
  · by_cases free : t.content.length < size
    · simp [lookup,nodes,found,free]
    · simp [lookup,found,free] at room

theorem lookup_extends (t : Buckets size) (n : Node) : Extends t.nodes (t.lookup n).2.nodes := by
  intro i m here
  by_cases found : n ∈ t.content
  · simpa [lookup,found] using here
  · by_cases free : t.content.length < size
    · by_cases zero : i = 0
      · simp [nodes,zero] at here
      · rw [nodes,if_neg zero] at here
        obtain ⟨inside,_⟩ := List.getElem?_eq_some_iff.mp here
        simpa [lookup,nodes,found,free,zero,List.getElem?_append_left inside] using here
    · simpa [lookup,found,free] using here

theorem lookup_found (t : Buckets size) (n : Node) (i : Nat) (here : t.nodes i = some n) (some : i ≠ 0) : t.lookup n = (i, t) := by
  rw [nodes,if_neg some] at here
  obtain ⟨inside,rfl⟩ := List.getElem?_eq_some_iff.mp here
  rw [lookup,dif_pos (List.getElem_mem inside),t.distinct.idxOf_getElem]
  exact Prod.ext (Nat.succ_pred some) rfl

instance : UniqueTable (Buckets size) where
  nodes := nodes
  lookup := lookup
  lookup_found := lookup_found
  lookup_stored := lookup_stored
  lookup_extends := lookup_extends
  nodes_zero _ := rfl

end Buckets

/-- A cache that pushes nothing out. -/
instance : OpCache (Edge → Edge → Option Edge) where
  get c := c
  put c a b r a' b' := if a' = a ∧ b' = b then some r else c a' b'
  get_put c a b r a' b' x hit := by
    by_cases same : a' = a ∧ b' = b
    · exact .inl ⟨same.1,same.2,by simpa [same] using hit.symm⟩
    · exact .inr (by simpa [same] using hit)

/-- Both variants return the conjunction's edge, and the task the union's, unless the table has no room
for a node that the conjunction needs. A later run of either variant returns the same edge. -/
theorem union_kernel {s : State Θ C} {a b : Edge} (cached : CacheCorrect s) (first : Represents s a f) (second : Represents s b g)
    (granularity : Int) (prevLevel : Nat) :
    (∃ enough, ∀ fuel, enough ≤ fuel →
      Builds (Needed f g) s (fun σ => f σ && g σ) (sylvanAndNogcAlone granularity fuel a b prevLevel s) ∧
      Builds (Needed f g) s (fun σ => f σ && g σ) (sylvanAndUncollected granularity fuel a b prevLevel s) ∧
      Builds (Needed (fun σ => !f σ) fun σ => !g σ) s (fun σ => f σ || g σ) (combineTask (sylvanAndNogcAlone granularity fuel) a b s) ∧
      Builds (Needed (fun σ => !f σ) fun σ => !g σ) s (fun σ => f σ || g σ) (combineTask (sylvanAndUncollected granularity fuel) a b s) ∧
      ∀ x, sylvanAndNogcAlone granularity fuel a b prevLevel s = .returned x → ∀ later : State Θ C,
        Extends (nodes x.2.table) (nodes later.table) → CacheCorrect later → ∀ y,
        sylvanAndUncollected granularity fuel a b prevLevel later = .returned y → y.1 = x.1) ∧
    ∀ fuel, sylvanAndUncollected granularity fuel a b prevLevel s = sylvanAndNogcAlone granularity fuel a b prevLevel s ∧
      ∀ gc x, sylvanAndUncollected granularity fuel a b prevLevel s = .returned x →
        sylvanAndAlone (fun s => return s) gc granularity fuel a b prevLevel s = .returned x := by
  obtain ⟨ha,v,first⟩ := first
  obtain ⟨hb,w,second⟩ := second
  constructor
  · refine ⟨ha + hb + 1,fun fuel enough => ?_⟩
    have ands := sylvanAndNogcAlone_builds granularity fuel prevLevel s a b ha hb v w f g cached first second enough
    have ors := combineTask_builds granularity cached first second enough
    refine ⟨ands,ands,ors,ors,?_⟩
    intro x returns later more cached' y returns'
    obtain ⟨grown₁,_,same,_⟩ := EndsUnless.of_eq ands returns
    have first' := first.extend (grown₁.extends.trans more)
    have second' := second.extend (grown₁.extends.trans more)
    have ands' := sylvanAndNogcAlone_builds granularity fuel prevLevel later a b ha hb v w f g cached' first' second' enough
    obtain ⟨grown₂,_,_,only⟩ := EndsUnless.of_eq ands' returns'
    exact (only x.1 (same.extend (more.trans grown₂.extends))).symm
  · intro fuel
    refine ⟨uncollected_eq granularity fuel a b prevLevel s,fun gc x returns => ?_⟩
    exact sylvanAndAlone_follows gc granularity fuel a b prevLevel s x returns

/-- Nodes for the first two variables. -/
def twoBits : State (Buckets 4) (Edge → Edge → Option Edge) := ⟨⟨[⟨0,0,sylvanTrue⟩,⟨1,0,sylvanTrue⟩],by decide⟩,fun _ _ => none⟩

theorem twoBits_represent (i : Nat) (few : i < 2) : Represents twoBits ⟨false,i + 1⟩ fun σ => σ i := by
  have zero : Diagram.Denotes (nodes twoBits.table) 0 (i + 1) 0 fun _ => false := .leaf
  have here : nodes twoBits.table (i + 1) = some ⟨i,0,sylvanTrue⟩ := by
    obtain rfl | rfl : i = 0 ∨ i = 1 := by omega
    · rfl
    · rfl
  refine ⟨1,i,_,.node (Nat.succ_ne_zero i) here (Nat.le_refl i) (by simp [sylvanTrue]) zero zero,?_⟩
  simp [sylvanTrue]

/-- There is room for the one node that is new. -/
theorem union_kernel_twoBits : ∃ enough, ∀ fuel, enough ≤ fuel → ∃ x,
    combineTask (sylvanAndNogcAlone 1 fuel) ⟨false,1⟩ ⟨false,2⟩ twoBits = .returned x ∧
      Computes (Needed (fun σ => !σ 0) fun σ => !σ 1) twoBits (fun σ => σ 0 || σ 1) x := by
  have empty : CacheCorrect twoBits := fun _ _ _ hit => nomatch hit
  have first := twoBits_represent 0 (by decide)
  have second := twoBits_represent 1 (by decide)
  obtain ⟨⟨enough,ends⟩,_⟩ := union_kernel empty first second 1 0
  refine ⟨enough + 1,fun fuel more => ?_⟩
  have builds := (ends fuel (by omega)).2.2.1
  obtain ⟨fuel,rfl⟩ : ∃ k, fuel = k + 1 := ⟨fuel - 1,by omega⟩
  have returns : combineTask (sylvanAndNogcAlone 1 (fuel + 1)) ⟨false,1⟩ ⟨false,2⟩ twoBits =
      .returned (⟨false,3⟩, ⟨⟨[⟨0,0,sylvanTrue⟩,⟨1,0,sylvanTrue⟩,⟨0,2,sylvanTrue⟩],by decide⟩,
        OpCache.put twoBits.cache ⟨true,1⟩ ⟨true,2⟩ ⟨true,3⟩⟩) := rfl
  exact ⟨_,returns,EndsUnless.of_eq builds returns⟩

end Libdft.Sylvan
