import Libdft.LlmssetFound
import Mathlib.Data.Finset.Card

/-! One lookup at a time. It returns, and what it returns and leaves are what the operations on
diagrams rely on. -/
namespace Libdft.Llmsset

/-- A thread's accesses, one after the other, bring its lookup to an end. -/
def Ends (p : Params) (t : Tid) (s : State) : Prop :=
  ∃ m s', Run (Step p) s (List.replicate m (.run t)) s' ∧ s'.pc t = .idle

section Ends
variable {p : Params} {t : Tid} {s : State} {l : Lookup}

theorem Ends.idle (idle : s.pc t = .idle) : Ends p t s := ⟨0,s,.nil,idle⟩

theorem Ends.step (busy : s.pc t ≠ .idle) (ends : Ends p t (s.advance p t)) : Ends p t s := by
  obtain ⟨m,s',run,idle⟩ := ends
  exact ⟨m + 1,s',.cons (.run busy) run,idle⟩

theorem finish_ends (idx : Nat) (created : Bool) : Ends p t (s.finish t l idx created) := .idle (s.goto_self t .idle)

/-- The slot is still empty when the entry is published. -/
theorem publish_ends (here : s.pc t = .publish l) (empty : s.dbs.table l.slot = 0) : Ends p t s := by
  refine .step (by rw [here]; exact nofun) ?_
  simp only [State.advance,here,if_pos empty]
  exact finish_ends _ _

theorem writeA_ends (here : s.pc t = .writeA l) (empty : s.dbs.table l.slot = 0) : Ends p t s := by
  refine .step (by simp [here]) ?_
  simp only [State.advance,here]
  refine .step (by simp [State.goto_self]) ?_
  simp only [State.advance,State.goto_self]
  exact publish_ends (State.goto_self ..) empty

theorem load_ends (here : s.pc t = .load l r i j) (empty : s.dbs.table l.slot = 0) : Ends p t s := by
  refine .step (by simp [here]) ?_
  simp only [State.advance,here]
  refine .step (by simp [State.goto_self]) ?_
  simp only [State.advance,State.goto_self]
  exact writeA_ends (State.goto_self ..) empty

/-- The words of a region that are left to look at get fewer. -/
theorem scan_ends (here : s.pc t = .scan l r i) (empty : s.dbs.table l.slot = 0)
    (further : ∀ s' : State, s'.dbs = s.dbs → Ends p t (s'.seek p t l p.regions (r + 1))) : Ends p t s := by
  obtain ⟨left,rest⟩ : ∃ left, 8 - i = left := ⟨_,rfl⟩
  induction left generalizing s i with
  | zero =>
    refine .step (by rw [here]; exact nofun) ?_
    simp only [State.advance,here,if_neg (by omega : ¬i < 8)]
    exact further s rfl
  | succ left ih =>
    refine .step (by rw [here]; exact nofun) ?_
    simp only [State.advance,here,if_pos (by omega : i < 8)]
    split
    · exact ih (State.goto_self ..) empty further (by omega)
    · exact load_ends (State.goto_self ..) empty

/-- The regions that nobody has taken. -/
def free (p : Params) (d : Dbs) : Finset Nat := (Finset.range p.regions).filter fun r => isMarked d.bitmap1 r = false

theorem free_less {d d' : Dbs} {r : Nat} (inside : r < p.regions) (untaken : isMarked d.bitmap1 r = false)
    (marks : ∀ c, isMarked d'.bitmap1 c = (isMarked d.bitmap1 c || decide (c = r))) : (free p d').card < (free p d).card := by
  apply Finset.card_lt_card
  rw [Finset.ssubset_iff_of_subset]
  · refine ⟨r,Finset.mem_filter.mpr ⟨Finset.mem_range.mpr inside,untaken⟩,fun member => ?_⟩
    have still := (Finset.mem_filter.mp member).2
    simp [marks] at still
  · intro c member
    obtain ⟨within,still⟩ := Finset.mem_filter.mp member
    rw [marks,Bool.or_eq_false_iff] at still
    exact Finset.mem_filter.mpr ⟨within,still.1⟩

theorem grab_ends (here : s.pc t = .grab l count r v) (read : s.dbs.bitmap1 (r / 64) = v) (inside : r < p.regions)
    (untaken : v &&& bit (r % 64) = 0) (empty : s.dbs.table l.slot = 0)
    (further : ∀ s' : State, (free p s'.dbs).card < (free p s.dbs).card → s'.dbs.table l.slot = 0 → Ends p t (s'.seek p t l p.regions (r + 1))) :
    Ends p t s := by
  subst read
  refine .step (by rw [here]; exact nofun) ?_
  simp only [State.advance,here,if_true]
  refine scan_ends (State.goto_self ..) empty fun s' same => further s' ?_ (same ▸ empty)
  rw [same]
  refine free_less inside ?_ fun c => ?_
  · rw [isMarked,decide_eq_false_iff_not,not_not]
    exact untaken
  · show isMarked (Function.update _ _ _) c = _
    rw [isMarked_or (Nat.mod_lt r (by decide)),Nat.div_add_mod]

/-- A thread that looks for a region tries those that are left, and takes one of the free ones. -/
theorem seek_ends (count next : Nat) (empty : s.dbs.table l.slot = 0) : Ends p t (s.seek p t l count next) := by
  obtain ⟨n,many⟩ : ∃ n, (free p s.dbs).card = n := ⟨_,rfl⟩
  induction n using Nat.strong_induction_on generalizing s count next l with
  | _ n fewer =>
    induction count generalizing s next with
    | zero => exact finish_ends 0 false
    | succ count ih =>
      have inside := Seeks.wrap_lt p next
      change Ends p t (s.goto t (.test l count (if next ≥ p.regions then 0 else next)))
      generalize (if next ≥ p.regions then 0 else next) = r at inside ⊢
      refine .step (by simp) ?_
      simp only [State.advance,State.goto_self]
      split
      next => exact ih _ empty many
      next untaken =>
        refine grab_ends (State.goto_self ..) rfl inside (not_not.mp untaken) empty fun s' less empty' => ?_
        exact fewer _ (many ▸ less) _ _ empty' rfl

theorem claim_ends (empty : s.dbs.table l.slot = 0) : Ends p t (s.claim p t l) := by
  unfold State.claim
  split
  · refine scan_ends (State.goto_self ..) empty fun s' same => seek_ends _ _ ?_
    rw [same]
    exact empty
  · exact seek_ends _ _ empty

/-- The next slot is read, or the threshold is reached. -/
theorem moveOn_ends {n : Nat} (place : l.cursor = p.probing.cursor l.key n) (small : n < 8 * p.threshold)
    (further : n + 1 < 8 * p.threshold → Ends p t (s.goto t (.read { l with cursor := l.cursor.next p l.key }))) :
    Ends p t (s.moveOn p t l) := by
  unfold State.moveOn
  split
  · exact finish_ends 0 false
  next goesOn =>
    have within : l.cursor.i < p.threshold := by
      rw [place,Params.cursor_eq]
      simp only
      omega
    have next := next_i within (Bool.eq_false_iff.mpr goesOn)
    have more : l.cursor.next p l.key = p.probing.cursor l.key (n + 1) := congrArg (Cursor.next p l.key) place
    rw [more,Params.cursor_eq] at next
    simp only at next
    exact further (by omega)

/-- The slots within the threshold that are left get fewer. -/
theorem read_ends {n : Nat} (here : s.pc t = .read l) (none : l.cidx = 0) (place : l.cursor = p.probing.cursor l.key n)
    (small : n < 8 * p.threshold) : Ends p t s := by
  obtain ⟨left,rest⟩ : ∃ left, 8 * p.threshold - n = left := ⟨_,rfl⟩
  induction left generalizing s l n with
  | zero => omega
  | succ left ih =>
    have further (s' : State) : Ends p t (s'.moveOn p t l) := moveOn_ends place small fun more => by
      have next : l.cursor.next p l.key = p.probing.cursor l.key (n + 1) := congrArg (Cursor.next p l.key) place
      exact ih (l := { l with cursor := l.cursor.next p l.key }) (State.goto_self ..) none next more (by omega)
    refine .step (by rw [here]; exact nofun) ?_
    simp only [State.advance,here,none,if_true]
    split
    next empty => exact claim_ends empty
    next filled =>
      unfold State.examine
      split
      next =>
        refine .step (by simp) ?_
        simp only [State.advance,State.goto_self]
        split
        · refine .step (by simp) ?_
          simp only [State.advance,State.goto_self]
          split
          · rw [if_neg (not_not.mpr none)]
            exact finish_ends _ _
          · exact further _
        · exact further _
      next => exact further _

end Ends

/-- What every access of the thread keeps holds at the end. -/
theorem alone_invariant {p : Params} {t : Tid} {s s' : State} (property : State → Prop)
    (kept : ∀ s, s.pc t ≠ .idle → property s → property (s.advance p t)) {m : Nat} (run : Run (Step p) s (List.replicate m (.run t)) s')
    (first : property s) : property s' := by
  induction m generalizing s with
  | zero =>
    cases run
    exact first
  | succ m ih =>
    rw [List.replicate_succ] at run
    cases run with
    | cons one rest =>
      cases one with
      | run busy => exact ih rest (kept s busy first)

/-- The accesses that end a lookup are determined. -/
theorem alone_unique {p : Params} {t : Tid} {s s' s'' : State} {m m' : Nat} (run : Run (Step p) s (List.replicate m (.run t)) s')
    (idle : s'.pc t = .idle) (run' : Run (Step p) s (List.replicate m' (.run t)) s'') (idle' : s''.pc t = .idle) : s' = s'' := by
  induction m generalizing s m' with
  | zero =>
    cases run
    cases m' with
    | zero =>
      cases run'
      rfl
    | succ m' =>
      rw [List.replicate_succ] at run'
      cases run' with
      | cons one _ =>
        cases one with
        | run busy => exact absurd idle busy
  | succ m ih =>
    rw [List.replicate_succ] at run
    cases run with
    | cons one rest =>
      cases one with
      | run busy =>
        cases m' with
        | zero =>
          cases run'
          exact absurd idle' busy
        | succ m' =>
          rw [List.replicate_succ] at run'
          cases run' with
          | cons one' rest' =>
            cases one' with
            | run => exact ih rest rest'

/-- The unique table between lookups. -/
structure Table (p : Params) where
  dbs : Dbs
  myRegion : Tid → Option Nat
  inv : Invariant p ⟨dbs,myRegion,fun _ => .idle,[]⟩
  near : Near p dbs

namespace Table
variable {p : Params}

def state (x : Table p) : State := ⟨x.dbs,x.myRegion,fun _ => .idle,[]⟩

def called (x : Table p) (t : Tid) (k : Key) : State := x.state.goto t (.read ⟨k,.start p k,0⟩)

theorem called_step (x : Table p) (t : Tid) (k : Key) : Step p x.state (.call t k) (x.called t k) := .call rfl

/-- A lookup of the thread alone. -/
def Looks (t : Tid) (x : Table p) (k : Key) (idx : Nat) (y : Table p) : Prop :=
  ∃ m created, Run (Step p) x.state (.call t k :: List.replicate m (.run t)) ⟨y.dbs,y.myRegion,fun _ => .idle,[⟨k,idx,created⟩]⟩

theorem within (x : Table p) : Within p x.state :=
  ⟨⟨x.inv,fun _ => trivial⟩,x.near,fun _ _ here => by cases here⟩

/-- Between the call and the return, as far as what was returned and the other threads go. -/
structure During (t : Tid) (k : Key) (s : State) : Prop where
  others : ∀ u, u ≠ t → s.pc u = .idle
  returned : (s.log = [] ∧ ∃ l, (s.pc t).lookup = some l ∧ l.key = k) ∨ (s.pc t = .idle ∧ ∃ idx created, s.log = [⟨k,idx,created⟩])

theorem During.advance {t : Tid} {k : Key} {s : State} (within : Within p s) (busy : s.pc t ≠ .idle) (during : During t k s) :
    During t k (s.advance p t) := by
  refine ⟨fun u other => ?_,?_⟩
  · rw [(Seeks.advance (within.watched.sought t)).others u other]
    exact during.others u other
  · rcases during.returned with ⟨log,l,here,rfl⟩ | ended
    · rcases Goes.advance (p := p) here with ⟨l',here',key,_,same⟩ | ⟨idx,created,idle,same⟩
      · exact .inl ⟨same.trans log,l',here',key⟩
      · exact .inr ⟨idle,idx,created,by rw [same,log]⟩
    · exact absurd ended.1 busy

theorem forget {s : State} (inv : Invariant p s) : Invariant p ⟨s.dbs,s.myRegion,fun _ => .idle,[]⟩ where
  table := inv.table
  fits _ := trivial
  owned := inv.owned
  alone := inv.alone
  stored _ member := by cases member
  created _ member := by cases member
  once := .nil

theorem called_during (x : Table p) (t : Tid) (k : Key) : During t k (x.called t k) := by
  refine ⟨fun u other => State.goto_other _ _ _ other,.inl ⟨rfl,⟨k,.start p k,0⟩,?_,rfl⟩⟩
  rw [called,State.goto_self]
  rfl

/-- Every lookup returns. -/
theorem looks (t : Tid) (x : Table p) (k : Key) : ∃ idx y, x.Looks t k idx y := by
  obtain ⟨m,s,run,ended⟩ : Ends p t (x.called t k) :=
    read_ends (n := 0) (State.goto_self ..) rfl rfl (Nat.mul_pos (by decide) p.threshold_pos)
  have first : Within p (x.called t k) ∧ During t k (x.called t k) := ⟨x.within.step (x.called_step t k),x.called_during t k⟩
  obtain ⟨within,during⟩ := alone_invariant (fun s => Within p s ∧ During t k s)
    (fun _ busy both => ⟨both.1.advance t,both.2.advance both.1 busy⟩) run first
  obtain ⟨idx,created,log⟩ : ∃ idx created, s.log = [⟨k,idx,created⟩] := by
    rcases during.returned with ⟨_,l,here,_⟩ | returned
    · rw [ended] at here
      cases here
    · exact returned.2
  have quiet (u : Tid) : s.pc u = .idle := by
    by_cases self : u = t
    · exact self ▸ ended
    · exact during.others u self
  refine ⟨idx,⟨s.dbs,s.myRegion,forget within.watched.inv,within.near⟩,m,created,.cons (x.called_step t k) ?_⟩
  have whole : s = ⟨s.dbs,s.myRegion,fun _ => .idle,[⟨k,idx,created⟩]⟩ := by
    rw [← log,← funext quiet]
  exact whole ▸ run

section Looks
variable {t : Tid} {x y : Table p} {k : Key} {idx : Nat} (looks : x.Looks t k idx y)
include looks

theorem Looks.invariant (property : State → Prop) (first : property (x.called t k))
    (kept : ∀ s, Within p s → s.pc t ≠ .idle → property s → property (s.advance p t)) :
    ∃ created, property ⟨y.dbs,y.myRegion,fun _ => .idle,[⟨k,idx,created⟩]⟩ := by
  obtain ⟨m,created,run⟩ := looks
  refine ⟨created,?_⟩
  cases run with
  | cons begun rest =>
    cases begun with
    | call =>
      exact (alone_invariant (fun s => Within p s ∧ property s) (fun s busy both => ⟨both.1.advance t,kept s both.1 busy both.2⟩) rest
        ⟨x.within.step (x.called_step t k),first⟩).2

theorem Looks.grows : Grows x.dbs y.dbs := by
  obtain ⟨_,grows⟩ := looks.invariant (fun s => Grows x.dbs s.dbs) .refl fun s within _ grows =>
    grows.trans (Fills.advance within.watched.inv t).grows
  exact grows

theorem Looks.stored (some : idx ≠ 0) : Stored y.dbs idx k := by
  obtain ⟨_,inv⟩ := looks.invariant (Invariant p) (x.within.step (x.called_step t k)).watched.inv fun s _ _ inv => inv.advance t
  exact inv.stored _ (List.mem_singleton.mpr rfl) some

/-- Another run of the lookup returns the same. -/
theorem Looks.returned {s : State} {m : Nat} (run : Run (Step p) x.state (.call t k :: List.replicate m (.run t)) s)
    (ended : s.pc t = .idle) : ∃ created, s.log = [⟨k,idx,created⟩] := by
  obtain ⟨m',created,run'⟩ := looks
  cases run with
  | cons one rest =>
    cases run' with
    | cons one' rest' =>
      cases one with
      | call =>
        cases one' with
        | call => exact ⟨created,by rw [alone_unique rest ended rest' rfl]⟩

/-- A content that is in the table is found, and nothing else happens. -/
theorem Looks.found (stored : Stored x.dbs c k) : idx = c ∧ y = x := by
  obtain ⟨m,target⟩ := stored.target x.inv.table x.near
  let Finding (s : State) : Prop := Still x.state s ∧ (s.log = [] ∧ OnWay p k m (s.pc t) ∨ s.log = [⟨k,c,false⟩] ∧ s.pc t = .idle)
  have first : Finding (x.called t k) := by
    refine ⟨⟨rfl,rfl⟩,.inl ⟨rfl,?_⟩⟩
    rw [called,State.goto_self]
    exact ⟨rfl,rfl,0,Nat.zero_le m,rfl⟩
  have kept (s : State) (within : Within p s) (busy : s.pc t ≠ .idle) (finding : Finding s) : Finding (s.advance p t) := by
    obtain ⟨⟨dbs,myRegion⟩,⟨log,onWay⟩ | ended⟩ := finding
    · have here : Target p s.dbs k c m := dbs ▸ target
      obtain ⟨⟨dbs',myRegion'⟩,⟨log',on⟩ | ⟨log',idle⟩⟩ := here.advance within.watched.inv onWay
      · exact ⟨⟨dbs'.trans dbs,myRegion'.trans myRegion⟩,.inl ⟨log'.trans log,on⟩⟩
      · exact ⟨⟨dbs'.trans dbs,myRegion'.trans myRegion⟩,.inr ⟨by rw [log',log],idle⟩⟩
    · exact absurd ended.2 busy
  obtain ⟨created,⟨dbs,myRegion⟩,⟨_,onWay⟩ | ⟨log,_⟩⟩ := looks.invariant Finding first kept
  · exact onWay.elim
  · simp only [List.cons.injEq,Return.mk.injEq] at log
    refine ⟨log.1.2.1,?_⟩
    cases x
    cases y
    obtain rfl := dbs
    obtain rfl := myRegion
    rfl

/-- A lookup that finds no room leaves the table exhausted for the content. -/
theorem Looks.exhausted (full : idx = 0) : Exhausted p y.state k := by
  let Failing (s : State) : Prop := During t k s ∧ ∀ created, s.log = [⟨k,0,created⟩] → Exhausted p s k
  have kept (s : State) (within : Within p s) (busy : s.pc t ≠ .idle) (failing : Failing s) : Failing (s.advance p t) := by
    refine ⟨failing.1.advance within busy,fun created failed => ?_⟩
    have empty : s.log = [] := failing.1.returned.resolve_right (fun ended => busy ended.1) |>.1
    have before := within.watched.fails (p := p) (t := t) (empty.symm ▸ failed)
    exact before.grow (Seeks.advance (within.watched.sought t)).owners (Fills.advance within.watched.inv t).grows
  obtain ⟨created,_,exhausted⟩ := looks.invariant Failing ⟨x.called_during t k,fun _ log => nomatch log⟩ kept
  exact exhausted created (by rw [full])

end Looks

end Table
end Libdft.Llmsset
