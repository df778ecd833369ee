import Libdft.LlmssetProbe

/-! What a lookup finds. An entry is put within the threshold of its probe sequence, so that a
lookup that begins after it was published comes to it, whatever other threads do in between. -/
namespace Libdft.Llmsset

/-- The lookup of a thread that looks a content up. -/
def Pc.lookup : Pc → Option Lookup
  | .idle => none
  | .read l | .scan l _ _ | .load l _ _ _ | .store l _ _ _ _ | .test l _ _ | .grab l _ _ _ | .writeA l | .writeB l | .publish l
  | .reread l | .compareA l _ | .compareB l _ | .loadRelease l _ | .storeRelease l _ _ => some l

/-- What an access does for its thread: the lookup goes on, at its slot or at the next, or returns. -/
inductive Goes (p : Params) (s : State) (t : Tid) (l : Lookup) (s' : State) : Prop where
  | on (l' : Lookup) : (s'.pc t).lookup = some l' → l'.key = l.key →
      l'.cursor = l.cursor ∨ l'.cursor = l.cursor.next p l.key ∧ l.cursor.givesUp p = false → s'.log = s.log → Goes p s t l s'
  | returns (idx : Nat) (created : Bool) : s'.pc t = .idle → s'.log = ⟨l.key,idx,created⟩ :: s.log → Goes p s t l s'

namespace Goes
variable {p : Params} {s : State} {t : Tid} {l : Lookup}

theorem goto {pc : Pc} (l' : Lookup) (here : pc.lookup = some l') (key : l'.key = l.key) (cursor : l'.cursor = l.cursor) :
    Goes p s t l (s.goto t pc) :=
  .on l' (by rw [State.goto_self,here]) key (.inl cursor) rfl

theorem finish (idx : Nat) (created : Bool) : Goes p s t l (s.finish t l idx created) :=
  .returns idx created (s.goto_self t .idle) rfl

theorem moveOn : Goes p s t l (s.moveOn p t l) := by
  unfold State.moveOn
  split
  · exact finish 0 false
  next goesOn => exact .on { l with cursor := l.cursor.next p l.key } (by rw [State.goto_self]; rfl) rfl (.inr ⟨rfl,by simpa using goesOn⟩) rfl

theorem examine (v : Word) : Goes p s t l (s.examine p t l v) := by
  unfold State.examine
  split
  · exact goto l rfl rfl rfl
  · exact moveOn

theorem seek (count next : Nat) : Goes p s t l (s.seek p t l count next) := by
  cases count with
  | zero => exact finish 0 false
  | succ count => exact goto l rfl rfl rfl

theorem claim : Goes p s t l (s.claim p t l) := by
  unfold State.claim
  split
  · exact goto l rfl rfl rfl
  · exact seek _ _

/-- A step that also writes. -/
theorem change {s₁ : State} (log : s₁.log = s.log) (goes : Goes p s₁ t l s') : Goes p s t l s' := by
  cases goes with
  | on l' here key cursor same => exact .on l' here key cursor (same.trans log)
  | returns idx created here same => exact .returns idx created here (log ▸ same)

theorem advance (here : (s.pc t).lookup = some l) : Goes p s t l (s.advance p t) := by
  cases at' : s.pc t with
  | idle =>
    rw [at'] at here
    cases here
  | read l' =>
    rw [at'] at here
    obtain rfl := Option.some.inj here
    simp only [State.advance,at']
    split
    · split
      · exact claim
      · exact goto l' rfl rfl rfl
    · exact examine _
  | scan l' r i =>
    rw [at'] at here
    obtain rfl := Option.some.inj here
    simp only [State.advance,at']
    split
    · split
      · exact goto l' rfl rfl rfl
      · exact goto l' rfl rfl rfl
    · exact seek _ _
  | load l' r i j | loadRelease l' d =>
    rw [at'] at here
    obtain rfl := Option.some.inj here
    simp only [State.advance,at']
    exact goto l' rfl rfl rfl
  | store l' r i j w =>
    rw [at'] at here
    obtain rfl := Option.some.inj here
    simp only [State.advance,at']
    exact change (by rfl) (goto _ rfl rfl rfl)
  | writeA l' | writeB l' =>
    rw [at'] at here
    obtain rfl := Option.some.inj here
    simp only [State.advance,at']
    exact change (by rfl) (goto l' rfl rfl rfl)
  | test l' count r =>
    rw [at'] at here
    obtain rfl := Option.some.inj here
    simp only [State.advance,at']
    split
    · exact seek _ _
    · exact goto l' rfl rfl rfl
  | grab l' count r v =>
    rw [at'] at here
    obtain rfl := Option.some.inj here
    simp only [State.advance,at']
    split
    · exact change (by rfl) (goto l' rfl rfl rfl)
    · exact goto l' rfl rfl rfl
  | publish l' =>
    rw [at'] at here
    obtain rfl := Option.some.inj here
    simp only [State.advance,at']
    split
    · exact change (by rfl) (finish _ _)
    · exact goto l' rfl rfl rfl
  | reread l' =>
    rw [at'] at here
    obtain rfl := Option.some.inj here
    simp only [State.advance,at']
    exact examine _
  | compareA l' d =>
    rw [at'] at here
    obtain rfl := Option.some.inj here
    simp only [State.advance,at']
    split
    · exact goto l' rfl rfl rfl
    · exact moveOn
  | compareB l' d =>
    rw [at'] at here
    obtain rfl := Option.some.inj here
    simp only [State.advance,at']
    split
    · split
      · exact goto l' rfl rfl rfl
      · exact finish _ _
    · exact moveOn
  | storeRelease l' d w =>
    rw [at'] at here
    obtain rfl := Option.some.inj here
    simp only [State.advance,at']
    exact change (by rfl) (finish _ _)

end Goes

/-- Every content is at one of the first `8 * threshold` slots on its probe sequence. -/
def Near (p : Params) (d : Dbs) : Prop := ∀ q k, d.slots q = some k → ∃ n < 8 * p.threshold, p.probing.position k n = q

/-- Entries and lookups are within the threshold. -/
structure Within (p : Params) (s : State) : Prop where
  watched : Watched p s
  near : Near p s.dbs
  cursors : ∀ t l, (s.pc t).lookup = some l → l.cursor.i < p.threshold

section Within
variable {p : Params} {s s' : State} {t : Tid} {l : Lookup}

theorem next_i (small : l.cursor.i < p.threshold) (goesOn : l.cursor.givesUp p = false) : (l.cursor.next p l.key).i < p.threshold := by
  unfold Cursor.next
  rw [Cursor.givesUp,decide_eq_false_iff_not] at goesOn
  split
  next wraps =>
    have more : l.cursor.i + 1 ≠ p.threshold := fun last => goesOn ⟨wraps,last⟩
    show l.cursor.i + 1 < p.threshold
    omega
  next => exact small

end Within

section Shared
variable (p : Params) (s : State) (t : Tid) (l : Lookup)

@[simp] theorem finish_dbs (idx : Nat) (created : Bool) : (s.finish t l idx created).dbs = s.dbs := rfl

@[simp] theorem moveOn_dbs : (s.moveOn p t l).dbs = s.dbs := by
  unfold State.moveOn
  split <;> rfl

@[simp] theorem examine_dbs (v : Word) : (s.examine p t l v).dbs = s.dbs := by
  unfold State.examine
  split
  · rfl
  · exact moveOn_dbs p s t l

@[simp] theorem seek_dbs (count next : Nat) : (s.seek p t l count next).dbs = s.dbs := by
  cases count <;> rfl

@[simp] theorem claim_dbs : (s.claim p t l).dbs = s.dbs := by
  unfold State.claim
  split
  · rfl
  · exact seek_dbs p s t l _ _

end Shared

/-- What an access does to the table: entries stay, and a new one is what its thread publishes. -/
structure Fills (s : State) (t : Tid) (s' : State) : Prop where
  grows : Grows s.dbs s'.dbs
  new : ∀ q k, s'.dbs.slots q = some k → s.dbs.slots q = some k ∨ ∃ l, s.pc t = .publish l ∧ l.slot = q ∧ l.key = k

namespace Fills
variable {p : Params} {s s' : State} {t : Tid}

theorem same (table : s'.dbs.table = s.dbs.table) (data : s'.dbs.data = s.dbs.data) : Fills s t s' := by
  refine ⟨⟨fun q _ => congrFun table q,fun c _ => congrFun data c⟩,fun q k here => .inl ?_⟩
  rwa [Dbs.slots,table,data] at here

theorem still (dbs : s'.dbs = s.dbs) : Fills s t s' := same (by rw [dbs]) (by rw [dbs])

theorem write {c : Nat} (unpublished : ¬ s.dbs.Published c) (x : Key) (dbs : s'.dbs = { s.dbs with data := Function.update s.dbs.data c x }) :
    Fills s t s' := by
  refine ⟨⟨fun q _ => by rw [dbs],fun c' published => ?_⟩,fun q k here => .inl ?_⟩
  · rw [dbs]
    refine Function.update_of_ne ?_ _ _
    rintro rfl
    exact unpublished published
  · rwa [dbs,slots_data unpublished] at here

theorem advance (inv : Invariant p s) (t : Tid) : Fills s t (s.advance p t) := by
  have fits := inv.fits t
  cases here : s.pc t with
  | idle | load l r i j | loadRelease l d | reread l =>
    refine still ?_
    simp [State.advance,here]
  | read l | scan l r i =>
    refine still ?_
    simp only [State.advance,here]
    split
    · split <;> simp
    · simp
  | test l count r | compareA l d =>
    refine still ?_
    simp only [State.advance,here]
    split <;> simp
  | compareB l d =>
    refine still ?_
    simp only [State.advance,here]
    split
    · split <;> simp
    · simp
  | grab l count r v =>
    simp only [State.advance,here]
    split
    · exact same rfl rfl
    · exact still rfl
  | store l r i j w | storeRelease l d w =>
    simp only [State.advance,here]
    exact same rfl rfl
  | writeA l =>
    rw [here] at fits
    simp only [State.advance,here]
    exact write fits.2.unpublished _ rfl
  | writeB l =>
    rw [here] at fits
    simp only [State.advance,here]
    exact write fits.2.1.unpublished _ rfl
  | publish l =>
    rw [here] at fits
    obtain ⟨_,mine,content⟩ := fits
    simp only [State.advance,here]
    split
    next empty =>
      have claimed : l.cidx ≠ 0 := by
        have large := mine.large
        omega
      have small := Nat.lt_of_lt_of_le mine.inside p.tableSize_le
      refine ⟨⟨fun q filled => publish_other (p := p) (d := s.dbs) ?_,fun _ _ => rfl⟩,fun q k stored => ?_⟩
      · rintro rfl
        exact filled empty
      · change (s.dbs.publish p l.slot l.key l.cidx).slots q = some k at stored
        rw [slots_publish claimed small] at stored
        by_cases at' : q = l.slot
        · subst at'
          rw [Function.update_self] at stored
          exact .inr ⟨l,here,rfl,content.symm.trans (Option.some.inj stored)⟩
        · rw [Function.update_of_ne at'] at stored
          exact .inl stored
    next => exact still rfl

end Fills

namespace Within
variable {p : Params} {s s' : State}

theorem advance (within : Within p s) (t : Tid) : Within p (s.advance p t) := by
  have inv := within.watched.inv
  have others := (Seeks.advance (within.watched.sought t)).others
  refine ⟨?_,fun q k here => ?_,fun u l' here => ?_⟩
  · by_cases idle : s.pc t = .idle
    · rw [State.advance,idle]
      exact within.watched
    · exact within.watched.step (.run idle)
  · rcases (Fills.advance inv t).new q k here with before | ⟨l,at',rfl,rfl⟩
    · exact within.near q k before
    · have fits := inv.fits t
      have small := within.cursors t l (by rw [at']; rfl)
      rw [at'] at fits
      obtain ⟨⟨n,place,_⟩,_⟩ := fits
      rw [place,Params.cursor_eq] at small
      refine ⟨n,?_,congrArg (fun c : Cursor => c.idx.toNat) place.symm⟩
      simp only at small
      omega
  · by_cases self : u = t
    · subst self
      cases before : (s.pc u).lookup with
      | none =>
        have idle : s.pc u = .idle := by
          cases at' : s.pc u with
          | idle => rfl
          | _ =>
            rw [at'] at before
            cases before
        simp [State.advance,idle,Pc.lookup] at here
      | some l =>
        have small := within.cursors u l before
        rcases Goes.advance (p := p) before with ⟨l'',here',key,cursor,_⟩ | ⟨idx,created,idle,_⟩
        · obtain rfl := Option.some.inj (here.symm.trans here')
          rcases cursor with same | ⟨next,goesOn⟩
          · rwa [same]
          · rw [next]
            exact next_i small goesOn
        · rw [idle] at here
          cases here
    · rw [others u self] at here
      exact within.cursors u l' here

theorem step {a : Act} (within : Within p s) (one : Step p s a s') : Within p s' := by
  cases one with
  | run => exact within.advance _
  | @call t k idle =>
    refine ⟨within.watched.step (.call idle),within.near,fun u l here => ?_⟩
    by_cases self : u = t
    · subst self
      rw [State.goto_self] at here
      obtain rfl := Option.some.inj here
      exact p.threshold_pos
    · rw [State.goto_other _ _ _ self] at here
      exact within.cursors u l here

end Within

/-- The entry of a content, within the threshold and past other contents. -/
structure Target (p : Params) (d : Dbs) (k : Key) (c m : Nat) : Prop where
  filled : d.table (p.probing.position k m) ≠ 0
  index : indexOf (d.table (p.probing.position k m)) = c
  content : d.data c = k
  near : m < 8 * p.threshold
  passed : p.probing.Passed d.slots k m

/-- A lookup that has not come past the slot of its content. -/
def OnWay (p : Params) (k : Key) (m : Nat) : Pc → Prop
  | .read l | .compareA l _ | .compareB l _ => l.key = k ∧ l.cidx = 0 ∧ ∃ n ≤ m, l.cursor = p.probing.cursor k n
  | _ => False

section Target
variable {p : Params} {s : State} {t : Tid} {k : Key} {c m : Nat} {l : Lookup}

theorem Target.grow {d d' : Dbs} (target : Target p d k c m) (grows : Grows d d') : Target p d' k c m := by
  have same := grows.table _ target.filled
  refine ⟨same ▸ target.filled,same ▸ target.index,?_,target.near,target.passed.keep grows.keeps⟩
  rw [grows.data c ⟨_,target.filled,target.index⟩,target.content]

theorem Stored.target {d : Dbs} (ok : TableOk p d) (near : Near p d) (stored : Stored d c k) : ∃ m, Target p d k c m := by
  obtain ⟨⟨q,filled,index⟩,content⟩ := stored
  have here : d.slots q = some k := by rw [slots_filled filled,index,content]
  obtain ⟨m,rfl,passed⟩ := ok.consistent q k here
  obtain ⟨n,small,same⟩ := near _ k here
  have first : m ≤ n := passed.first (by rw [same]; exact here)
  exact ⟨m,filled,index,content,Nat.lt_of_le_of_lt first small,passed⟩

/-- The access is over, and has not changed what is shared. -/
structure Still (s s' : State) : Prop where
  dbs : s'.dbs = s.dbs
  myRegion : s'.myRegion = s.myRegion

variable (target : Target p s.dbs k c m)
include target

/-- On to the next slot: the content is further on. -/
theorem Target.moveOn (key : l.key = k) (none : l.cidx = 0) (before : n < m) (place : l.cursor = p.probing.cursor k n) :
    Still s (s.moveOn p t l) ∧ (s.moveOn p t l).log = s.log ∧ OnWay p k m ((s.moveOn p t l).pc t) := by
  have goesOn : l.cursor.givesUp p = false := by
    have near := target.near
    rw [place,Params.cursor_eq,Cursor.givesUp,decide_eq_false_iff_not,beside_line,line_wraps (Nat.mod_lt n (by decide))]
    simp only
    omega
  unfold State.moveOn
  rw [goesOn]
  refine ⟨⟨rfl,rfl⟩,rfl,?_⟩
  rw [if_neg Bool.false_ne_true,State.goto_self]
  exact ⟨key,none,n + 1,before,by rw [place,key]; rfl⟩

/-- One access of a lookup on its way. -/
theorem Target.advance (inv : Invariant p s) (onWay : OnWay p k m (s.pc t)) : Still s (s.advance p t) ∧
    ((s.advance p t).log = s.log ∧ OnWay p k m ((s.advance p t).pc t) ∨
      (s.advance p t).log = ⟨k,c,false⟩ :: s.log ∧ (s.advance p t).pc t = .idle) := by
  have fits := inv.fits t
  cases here : s.pc t with
  | read l =>
    rw [here] at onWay
    obtain ⟨key,none,n,le,place⟩ := onWay
    have slot : l.slot = p.probing.position k n := congrArg (fun c : Cursor => c.idx.toNat) place
    have filled : s.dbs.table l.slot ≠ 0 := by
      rcases Nat.lt_or_eq_of_le le with before | rfl
      · obtain ⟨k',there,_⟩ := target.passed n before
        rw [← slot] at there
        intro empty
        simp [slots_empty.mpr empty] at there
      · rw [slot]
        exact target.filled
    simp only [State.advance,here]
    rw [if_neg filled]
    unfold State.examine
    split
    next => exact ⟨⟨rfl,rfl⟩,.inl ⟨rfl,by rw [State.goto_self]; exact ⟨key,none,n,le,place⟩⟩⟩
    next differ =>
      have before : n < m := by
        refine Nat.lt_of_le_of_ne le ?_
        rintro rfl
        refine differ ?_
        rw [inv.table.hashed _ filled,slot,target.index,target.content,key]
      obtain ⟨still,log,on⟩ := target.moveOn (t := t) key none before place
      exact ⟨still,.inl ⟨log,on⟩⟩
  | compareA l d =>
    rw [here] at onWay fits
    obtain ⟨key,none,n,le,place⟩ := onWay
    obtain ⟨_,_,index⟩ := fits
    have slot : l.slot = p.probing.position k n := congrArg (fun c : Cursor => c.idx.toNat) place
    simp only [State.advance,here]
    split
    next => exact ⟨⟨rfl,rfl⟩,.inl ⟨rfl,by rw [State.goto_self]; exact ⟨key,none,n,le,place⟩⟩⟩
    next differ =>
      have before : n < m := by
        refine Nat.lt_of_le_of_ne le ?_
        rintro rfl
        refine differ ?_
        rw [← index,slot,target.index,target.content,key]
      obtain ⟨still,log,on⟩ := target.moveOn (t := t) key none before place
      exact ⟨still,.inl ⟨log,on⟩⟩
  | compareB l d =>
    rw [here] at onWay fits
    obtain ⟨key,none,n,le,place⟩ := onWay
    obtain ⟨_,⟨filled,index⟩,first⟩ := fits
    have slot : l.slot = p.probing.position k n := congrArg (fun c : Cursor => c.idx.toNat) place
    simp only [State.advance,here]
    split
    next second =>
      have content : s.dbs.data d = k := (Prod.ext first second : s.dbs.data d = l.key).trans key
      have same : d = c := inv.table.same_key ⟨_,filled,index⟩ ⟨_,target.filled,target.index⟩ (content.trans target.content.symm)
      rw [if_neg (not_not.mpr none),same,← key]
      exact ⟨⟨rfl,rfl⟩,.inr ⟨rfl,s.goto_self t .idle⟩⟩
    next differ =>
      have before : n < m := by
        refine Nat.lt_of_le_of_ne le ?_
        rintro rfl
        refine differ ?_
        rw [← index,slot,target.index,target.content,key]
      obtain ⟨still,log,on⟩ := target.moveOn (t := t) key none before place
      exact ⟨still,.inl ⟨log,on⟩⟩
  | idle | scan l r i | load l r i j | store l r i j w | test l count r | grab l count r v | writeA l | writeB l | publish l | reread l
  | loadRelease l d | storeRelease l d w =>
    rw [here] at onWay
    exact onWay.elim

end Target

/-- A lookup that is on its way, or has just found its content. -/
def Finds (p : Params) (t : Tid) (k : Key) (c m : Nat) (s : State) : Prop :=
  Target p s.dbs k c m ∧ (OnWay p k m (s.pc t) ∨ s.pc t = .idle ∧ s.log.head? = some ⟨k,c,false⟩)

theorem Finds.step {p : Params} {s s' : State} {t : Tid} {a : Act} (watched : Watched p s) (finds : Finds p t k c m s)
    (one : Guarded (fun s _ => s.pc t ≠ .idle) (Step p) s a s') : Finds p t k c m s' := by
  obtain ⟨busy,one⟩ := one
  obtain ⟨target,state⟩ := finds
  have onWay : OnWay p k m (s.pc t) := state.resolve_right fun ended => busy ended.1
  cases one with
  | @call u k' idle =>
    have other : t ≠ u := fun same => busy (same ▸ idle)
    refine ⟨target,.inl ?_⟩
    rw [State.goto_other _ _ _ other]
    exact onWay
  | @run u _ =>
    have grows := (Fills.advance watched.inv u).grows
    by_cases self : u = t
    · subst self
      obtain ⟨still,⟨_,on⟩ | ⟨log,ended⟩⟩ := target.advance watched.inv onWay
      · exact ⟨target.grow grows,.inl on⟩
      · exact ⟨target.grow grows,.inr ⟨ended,by rw [log]; rfl⟩⟩
    · refine ⟨target.grow grows,.inl ?_⟩
      rw [(Seeks.advance (watched.sought u)).others t fun same => self same.symm]
      exact onWay

theorem Initial.watched {p : Params} {s : State} (initial : Initial p s) : Watched p s :=
  ⟨initial.invariant,fun t => by rw [initial.idle t]; trivial⟩

theorem Initial.within {p : Params} {s : State} (initial : Initial p s) (near : Near p s.dbs) : Within p s :=
  ⟨initial.watched,near,fun t l here => by rw [initial.idle t] at here; cases here⟩

/-- A content that was published before a lookup of it began is what the lookup returns. -/
theorem published_is_found {p : Params} {s₀ s₁ s₂ s₃ : State} {t : Tid} {k : Key} {c : Nat} (initial : Initial p s₀) (near : Near p s₀.dbs)
    (run : Run (Step p) s₀ before s₁) (stored : Stored s₁.dbs c k) (begun : Step p s₁ (.call t k) s₂)
    (meanwhile : Run (Guarded (fun s _ => s.pc t ≠ .idle) (Step p)) s₂ trace s₃) (ended : s₃.pc t = .idle) :
    s₃.log.head? = some ⟨k,c,false⟩ := by
  have within := run.invariant (Within p) (fun _ _ _ => Within.step) (initial.within near)
  obtain ⟨m,target⟩ := stored.target within.watched.inv.table within.near
  have first : Watched p s₂ ∧ Finds p t k c m s₂ := by
    refine ⟨within.watched.step begun,?_⟩
    cases begun with
    | call idle => exact ⟨target,.inl (by rw [State.goto_self]; exact ⟨rfl,rfl,0,Nat.zero_le _,rfl⟩)⟩
  obtain ⟨_,finds⟩ := meanwhile.invariant (fun s => Watched p s ∧ Finds p t k c m s)
    (fun _ _ _ both one => ⟨both.1.step one.2,both.2.step both.1 one⟩) first
  rcases finds.2 with onWay | found
  · rw [ended] at onWay
    exact onWay.elim
  · exact found.2

/-- One lookup after another of the same content, and one of a content whose probe sequence it shares. -/
def published : List Act := .call 0 (5,7) :: List.replicate 9 (.run 0)
def meanwhile : List Act := [.run 1,.call 0 (1,1),.run 0,.run 1,.run 0,.run 1]

theorem published_is_found_between : ∃ s₁ s₂ s₃, Run (Step twoRegions) .fresh published s₁ ∧ Step twoRegions s₁ (.call 1 (5,7)) s₂ ∧
    Run (Guarded (fun s _ => s.pc 1 ≠ .idle) (Step twoRegions)) s₂ meanwhile s₃ ∧ s₃.log.head? = some ⟨(5,7),2,false⟩ := by
  let s₁ := replay (State.perform twoRegions) .fresh published
  have run : Run (Step twoRegions) .fresh published s₁ :=
    run_replay (step_perform twoRegions) (show feasible State.enabled _ _ published = true by decide)
  have begun : Step twoRegions s₁ (.call 1 (5,7)) (s₁.perform twoRegions (.call 1 (5,7))) := step_perform _ _ _ (by decide)
  have rest : Run (Guarded (fun s _ => s.pc 1 ≠ .idle) (Step twoRegions)) (s₁.perform twoRegions (.call 1 (5,7))) meanwhile
      (replay (State.perform twoRegions) (s₁.perform twoRegions (.call 1 (5,7))) meanwhile) := by
    have sound (s : State) (a : Act) (enabled : (!(s.pc 1).isIdle && s.enabled a) = true) :
        Guarded (fun s _ => s.pc 1 ≠ .idle) (Step twoRegions) s a (s.perform twoRegions a) := by
      rw [Bool.and_eq_true,Bool.not_eq_true'] at enabled
      refine ⟨fun idle => ?_,step_perform _ s a enabled.2⟩
      simp [idle,Pc.isIdle] at enabled
    exact run_replay sound (by decide)
  have near : Near twoRegions State.fresh.dbs := fun q k here => by cases here
  have stored : Stored s₁.dbs 2 (5,7) := ⟨⟨805,by decide,by decide⟩,by decide⟩
  exact ⟨s₁,_,_,run,begun,rest,published_is_found State.fresh_initial near run stored begun rest (Pc.isIdle_iff.mp (by decide))⟩

end Libdft.Llmsset
