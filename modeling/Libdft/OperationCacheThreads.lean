import Libdft.OperationCache

/-! Gets and puts by any number of threads at once. A bucket is written by the thread that locked
it, and a get that finds the status it first read has seen one entry, unless the count of puts has
come round in between. -/
namespace Libdft.OperationCache

/-- The bucket that a thread has locked. -/
def owns (mask : Word) : Pc → Option Nat
  | .writeA e _ | .writeB e _ | .writeC e _ | .writeRes e _ | .unlock e _ => some (bucket mask e.toKey)
  | _ => none

/-- A get between its two reads of the status. -/
structure Watching (mask : Word) (s : State) (g : Get) : Prop where
  goesOn : refuses g.s g.key = false
  tag : tag g.s = g.since % 2 ^ 16
  since : g.since ≤ s.claims (bucket mask g.key)
  current : s.claims (bucket mask g.key) = g.since → s.status (bucket mask g.key) = g.s

/-- The entry is as it was, if the bucket has not been claimed. -/
def Seen (mask : Word) (s : State) (g : Get) (seen : Entry → Prop) : Prop :=
  s.claims (bucket mask g.key) = g.since → seen (s.table (bucket mask g.key))

/-- A put between its claim and the end. -/
structure Holding (mask : Word) (s : State) (e : Entry) (newS : Status) : Prop where
  status : s.status (bucket mask e.toKey) = newS ||| lockBit
  unlocks : isLocked newS = false

/-- What is true of a thread at its next access. -/
def Fits (mask : Word) (s : State) : Pc → Prop
  | .idle | .look _ | .enter _ => True
  | .matchA g => Watching mask s g
  | .matchB g => Watching mask s g ∧ Seen mask s g fun e => e.a = g.key.a
  | .matchC g => Watching mask s g ∧ Seen mask s g fun e => e.a = g.key.a ∧ e.b = g.key.b
  | .copy g => Watching mask s g ∧ Seen mask s g fun e => e.toKey = g.key
  | .check g res => Watching mask s g ∧ Seen mask s g fun e => e = ⟨g.key,res⟩
  | .claim _ st => isLocked st = false
  | .writeA e newS => Holding mask s e newS
  | .writeB e newS => Holding mask s e newS ∧ (s.table (bucket mask e.toKey)).a = e.a
  | .writeC e newS =>
    Holding mask s e newS ∧ (s.table (bucket mask e.toKey)).a = e.a ∧ (s.table (bucket mask e.toKey)).b = e.b
  | .writeRes e newS => Holding mask s e newS ∧ (s.table (bucket mask e.toKey)).toKey = e.toKey
  | .unlock e newS => Holding mask s e newS ∧ s.table (bucket mask e.toKey) = e

/-- A bucket that is not locked has the last entry that was put there, or was never written. -/
def Whole (s : State) (q : Nat) : Prop :=
  match s.stored q with
  | [] => s.status q = 0 ∧ s.table q = ⟨⟨0,0,0⟩,0⟩
  | e :: _ => s.table q = e

theorem whole_cons {s : State} {q : Nat} (stored : s.stored q = e :: older) (table : s.table q = e) : Whole s q := by
  rw [Whole,stored]
  exact table

structure Invariant (mask : Word) (s : State) : Prop where
  tags : ∀ q, tag (s.status q) = s.claims q % 2 ^ 16
  owner : ∀ q, isLocked (s.status q) = true ↔ ∃ t, owns mask (s.pc t) = some q
  alone : ∀ t u q, owns mask (s.pc t) = some q → owns mask (s.pc u) = some q → t = u
  whole : ∀ q, isLocked (s.status q) = false → Whole s q
  fits : ∀ t, Fits mask s (s.pc t)

/-- What a thread sees of a step of another one. -/
structure Apart (mask : Word) (s s' : State) (pc : Pc) : Prop where
  claims : ∀ q, s.claims q ≤ s'.claims q
  steady : ∀ q, s'.claims q = s.claims q → isLocked (s.status q) = false → s'.status q = s.status q ∧ s'.table q = s.table q
  own : ∀ q, owns mask pc = some q → s'.status q = s.status q ∧ s'.table q = s.table q

section Frame
variable {mask : Word} {s s' : State} {pc : Pc} {g : Get} {e : Entry} {newS : Status}

theorem Watching.unlocked (watching : Watching mask s g) : isLocked g.s = false := isLocked_of_not_refuses watching.goesOn

/-- Nothing has happened to the bucket of a get if it has not been claimed. -/
theorem Watching.steady (watching : Watching mask s g) (apart : Apart mask s s' pc)
    (same : s'.claims (bucket mask g.key) = g.since) :
    s.claims (bucket mask g.key) = g.since ∧ s'.status (bucket mask g.key) = s.status (bucket mask g.key) ∧
      s'.table (bucket mask g.key) = s.table (bucket mask g.key) := by
  have before : s.claims (bucket mask g.key) = g.since :=
    Nat.le_antisymm (same ▸ apart.claims _) watching.since
  refine ⟨before,apart.steady _ (same.trans before.symm) ?_⟩
  rw [watching.current before]
  exact watching.unlocked

theorem Watching.apart (watching : Watching mask s g) (apart : Apart mask s s' pc) : Watching mask s' g where
  goesOn := watching.goesOn
  tag := watching.tag
  since := Nat.le_trans watching.since (apart.claims _)
  current same := by
    obtain ⟨before,status,_⟩ := watching.steady apart same
    exact status.trans (watching.current before)

theorem Watching.seen {seen : Entry → Prop} (watching : Watching mask s g) (apart : Apart mask s s' pc)
    (before : Seen mask s g seen) : Seen mask s' g seen := by
  intro same
  obtain ⟨current,_,table⟩ := watching.steady apart same
  rw [table]
  exact before current

theorem Holding.apart (holding : Holding mask s e newS) (apart : Apart mask s s' pc)
    (own : owns mask pc = some (bucket mask e.toKey)) : Holding mask s' e newS :=
  ⟨(apart.own _ own).1.trans holding.status,holding.unlocks⟩

theorem Fits.apart (fits : Fits mask s pc) (apart : Apart mask s s' pc) : Fits mask s' pc := by
  cases pc with
  | idle | look k | enter e => trivial
  | matchA g => exact Watching.apart fits apart
  | matchB g | matchC g | copy g | check g res => exact ⟨fits.1.apart apart,fits.1.seen apart fits.2⟩
  | claim e st => exact fits
  | writeA e newS => exact Holding.apart fits apart rfl
  | writeB e newS | writeC e newS | writeRes e newS | unlock e newS =>
    refine ⟨fits.1.apart apart rfl,?_⟩
    rw [(apart.own _ rfl).2]
    exact fits.2

theorem Fits.same (fits : Fits mask s pc) (status : s'.status = s.status) (table : s'.table = s.table)
    (claims : s'.claims = s.claims) : Fits mask s' pc := by
  refine fits.apart ⟨fun q => ?_,fun q _ _ => ?_,fun q _ => ?_⟩
  · exact Nat.le_of_eq (congrFun claims.symm q)
  · rw [status,table]
    exact ⟨rfl,rfl⟩
  · rw [status,table]
    exact ⟨rfl,rfl⟩

end Frame

namespace Invariant
variable {mask : Word} {s s' : State} {t : Tid}

/-- A step that only reads. -/
theorem quiet (inv : Invariant mask s) (shared : s' = { s with pc := s'.pc, log := s'.log }) (pcs : ∀ u, u ≠ t → s'.pc u = s.pc u)
    (own : owns mask (s'.pc t) = owns mask (s.pc t)) (fits : Fits mask s (s'.pc t)) : Invariant mask s' := by
  have owned (u : Tid) : owns mask (s'.pc u) = owns mask (s.pc u) := by
    by_cases self : u = t
    · rw [self,own]
    · rw [pcs u self]
  have status : s'.status = s.status := by rw [shared]
  have table : s'.table = s.table := by rw [shared]
  have claims : s'.claims = s.claims := by rw [shared]
  have stored : s'.stored = s.stored := by rw [shared]
  refine ⟨?_,?_,?_,?_,fun u => ?_⟩
  · rw [status,claims]
    exact inv.tags
  · simp only [owned,status]
    exact inv.owner
  · simp only [owned]
    exact inv.alone
  · intro q unlocked
    rw [status] at unlocked
    have whole := inv.whole q unlocked
    rwa [Whole,← status,← table,← stored] at whole
  · by_cases self : u = t
    · rw [self]
      exact fits.same status table claims
    · rw [pcs u self]
      exact (inv.fits u).same status table claims

theorem goto (inv : Invariant mask s) {pc : Pc} (own : owns mask pc = owns mask (s.pc t)) (fits : Fits mask s pc) :
    Invariant mask (s.goto t pc) :=
  inv.quiet rfl (fun _ other => s.goto_other t pc other) (by rwa [State.goto_self]) (by rwa [State.goto_self])

theorem leave (inv : Invariant mask s) (k : Key) (result : Option Word) (turns : Nat) (own : owns mask (s.pc t) = none) :
    Invariant mask (s.leave t k result turns) :=
  inv.quiet (t := t) rfl (fun _ other => s.goto_other t .idle other) (by rw [own]; simp [State.leave,owns])
    (by simp [State.leave,Fits])

/-- A step that writes to one bucket, which no other thread has locked. -/
theorem write {q : Nat} (inv : Invariant mask s) (pcs : ∀ u, u ≠ t → s'.pc u = s.pc u)
    (elsewhere : ∀ q', q' ≠ q → s'.status q' = s.status q' ∧ s'.table q' = s.table q' ∧ s'.claims q' = s.claims q' ∧
      s'.stored q' = s.stored q')
    (free : ∀ u, u ≠ t → owns mask (s.pc u) ≠ some q)
    (before : ∀ q', owns mask (s.pc t) = some q' → q' = q) (after : ∀ q', owns mask (s'.pc t) = some q' → q' = q)
    (claims : s.claims q ≤ s'.claims q) (steady : isLocked (s.status q) = false → s'.claims q ≠ s.claims q)
    (tags : tag (s'.status q) = s'.claims q % 2 ^ 16) (owner : isLocked (s'.status q) = true ↔ owns mask (s'.pc t) = some q)
    (whole : isLocked (s'.status q) = false → Whole s' q) (fits : Fits mask s' (s'.pc t)) : Invariant mask s' where
  tags q' := by
    by_cases here : q' = q
    · rw [here,tags]
    · obtain ⟨status,_,claims,_⟩ := elsewhere q' here
      rw [status,claims,inv.tags]
  owner q' := by
    by_cases here : q' = q
    · subst here
      refine owner.trans ⟨fun own => ⟨t,own⟩,fun ⟨u,own⟩ => ?_⟩
      by_cases self : u = t
      · exact self ▸ own
      · exact absurd (pcs u self ▸ own) (free u self)
    · rw [(elsewhere q' here).1,inv.owner]
      constructor
      · rintro ⟨u,own⟩
        by_cases self : u = t
        · exact absurd (before q' (self ▸ own)) here
        · exact ⟨u,(pcs u self).symm ▸ own⟩
      · rintro ⟨u,own⟩
        by_cases self : u = t
        · exact absurd (after q' (self ▸ own)) here
        · exact ⟨u,pcs u self ▸ own⟩
  alone u v q' first second := by
    by_cases self : u = t <;> by_cases self' : v = t
    · rw [self,self']
    · subst self
      rw [pcs v self'] at second
      rw [after q' first] at second
      exact absurd second (free v self')
    · subst self'
      rw [pcs u self] at first
      rw [after q' second] at first
      exact absurd first (free u self)
    · rw [pcs u self] at first
      rw [pcs v self'] at second
      exact inv.alone u v q' first second
  whole q' unlocked := by
    by_cases here : q' = q
    · exact here ▸ whole (here ▸ unlocked)
    · obtain ⟨status,table,_,stored⟩ := elsewhere q' here
      rw [status] at unlocked
      have kept := inv.whole q' unlocked
      rwa [Whole,← status,← table,← stored] at kept
  fits u := by
    by_cases self : u = t
    · exact self ▸ fits
    · rw [pcs u self]
      refine (inv.fits u).apart ⟨fun q' => ?_,fun q' same unlocked => ?_,fun q' own => ?_⟩
      · by_cases here : q' = q
        · exact here ▸ claims
        · exact Nat.le_of_eq (elsewhere q' here).2.2.1.symm
      · have here : q' ≠ q := by
          rintro rfl
          exact steady unlocked same
        exact ⟨(elsewhere q' here).1,(elsewhere q' here).2.1⟩
      · have here : q' ≠ q := by
          rintro rfl
          exact free u self own
        exact ⟨(elsewhere q' here).1,(elsewhere q' here).2.1⟩

/-- The thread that has locked a bucket writes to the entry. -/
theorem setTable {e : Entry} {newS : Status} (inv : Invariant mask s) (own : owns mask (s.pc t) = some (bucket mask e.toKey))
    (holding : Holding mask s e newS) (x : Entry) {pc : Pc} (own' : owns mask pc = some (bucket mask e.toKey))
    (fits : Holding mask ((s.setTable (bucket mask e.toKey) x).goto t pc) e newS →
      ((s.setTable (bucket mask e.toKey) x).goto t pc).table (bucket mask e.toKey) = x →
      Fits mask ((s.setTable (bucket mask e.toKey) x).goto t pc) pc) :
    Invariant mask ((s.setTable (bucket mask e.toKey) x).goto t pc) := by
  have locked : isLocked (s.status (bucket mask e.toKey)) = true := (inv.owner _).mpr ⟨t,own⟩
  refine inv.write (q := bucket mask e.toKey) (fun u other => State.goto_other _ t pc other) (fun q' other => ?_) (fun u other own'' => ?_) ?_ ?_
    (Nat.le_refl _) ?_ (inv.tags _) ?_ ?_ ?_
  · exact ⟨rfl,Function.update_of_ne other _ _,rfl,rfl⟩
  · exact other (inv.alone u t _ own'' own)
  · exact fun q' here => Option.some.inj (here.symm.trans own)
  · intro q' here
    rw [State.goto_self,own'] at here
    exact (Option.some.inj here).symm
  · intro unlocked
    simp [locked] at unlocked
  · rw [State.goto_self]
    exact iff_of_true locked own'
  · intro unlocked
    have same : isLocked (s.status (bucket mask e.toKey)) = false := unlocked
    simp [locked] at same
  · rw [State.goto_self]
    exact fits ⟨holding.status,holding.unlocks⟩ (Function.update_self ..)

theorem claim {e : Entry} {st : Status} (inv : Invariant mask s) (here : s.pc t = .claim e st) : Invariant mask (s.advance mask t) := by
  have unlocked : isLocked st = false := by
    have fits := inv.fits t
    rwa [here] at fits
  have none : owns mask (s.pc t) = none := by
    rw [here]
    rfl
  simp only [State.advance,here]
  split
  case isFalse => exact inv.goto none.symm trivial
  case isTrue same =>
    have free : isLocked (s.status (bucket mask e.toKey)) = false := same ▸ unlocked
    refine inv.write (q := bucket mask e.toKey) (fun u other => State.goto_other _ t _ other) (fun q' other => ?_) (fun u other own => ?_) ?_ ?_
      ?_ ?_ ?_ ?_ ?_ ?_
    · exact ⟨Function.update_of_ne other _ _,rfl,Function.update_of_ne other _ _,rfl⟩
    · have locked := (inv.owner _).mpr ⟨u,own⟩
      simp [free] at locked
    · intro q' own
      simp [none] at own
    · intro q' own
      rw [State.goto_self] at own
      exact (Option.some.inj own).symm
    · simp
    · simp
    · have tag := inv.tags (bucket mask e.toKey)
      simp only [State.goto_status,State.goto_claims,Function.update_self]
      rw [tag_or_lock,tag_nextStatus,← same,tag,Nat.mod_add_mod]
    · rw [State.goto_self]
      simp [owns,isLocked_or]
    · simp [isLocked_or]
    · rw [State.goto_self]
      exact ⟨by simp,isLocked_nextStatus _ _⟩

theorem unlock {e : Entry} {newS : Status} (inv : Invariant mask s) (here : s.pc t = .unlock e newS) :
    Invariant mask (s.advance mask t) := by
  have fits := inv.fits t
  rw [here] at fits
  obtain ⟨holding,whole⟩ := fits
  have own : owns mask (s.pc t) = some (bucket mask e.toKey) := by
    rw [here]
    rfl
  have locked : isLocked (s.status (bucket mask e.toKey)) = true := (inv.owner _).mpr ⟨t,own⟩
  simp only [State.advance,here]
  refine inv.write (q := bucket mask e.toKey) (fun u other => State.goto_other _ t _ other) (fun q' other => ?_) (fun u other own' => ?_) ?_ ?_
    (Nat.le_refl _) ?_ ?_ ?_ ?_ ?_
  · exact ⟨Function.update_of_ne other _ _,rfl,rfl,Function.update_of_ne other _ _⟩
  · exact other (inv.alone u t _ own' own)
  · exact fun q' here => Option.some.inj (here.symm.trans own)
  · intro q' here
    rw [State.goto_self] at here
    cases here
  · intro unlocked
    simp [locked] at unlocked
  · have tag := inv.tags (bucket mask e.toKey)
    rw [holding.status,tag_or_lock] at tag
    simp only [State.goto_status,State.goto_claims,Function.update_self]
    exact tag
  · rw [State.goto_self]
    simp [owns,holding.unlocks]
  · intro _
    exact whole_cons (Function.update_self ..) whole
  · rw [State.goto_self]
    trivial

theorem compare {g : Get} {same : Bool} {next : Pc} (inv : Invariant mask s) (own : owns mask (s.pc t) = none)
    (own' : owns mask next = none) (fits : same = true → Fits mask s next) : Invariant mask (s.compare mask t g same next) := by
  unfold State.compare
  split
  next equal => exact inv.goto (own'.trans own.symm) (fits equal)
  next => exact inv.leave _ _ _ own

theorem advance (inv : Invariant mask s) (t : Tid) : Invariant mask (s.advance mask t) := by
  have fits := inv.fits t
  cases here : s.pc t with
  | idle =>
    simp only [State.advance,here]
    exact inv
  | look k =>
    have none : owns mask (s.pc t) = none := by rw [here]; rfl
    simp only [State.advance,here]
    split
    next => exact inv.leave _ _ _ none
    next goesOn =>
      rw [Bool.not_eq_true] at goesOn
      exact inv.goto none.symm ⟨goesOn,inv.tags _,Nat.le_refl _,fun _ => rfl⟩
  | matchA g =>
    rw [here] at fits
    simp only [State.advance,here]
    refine inv.compare (by rw [here]; rfl) rfl fun equal => ⟨fits,fun _ => ?_⟩
    exact decide_eq_true_iff.mp equal
  | matchB g =>
    rw [here] at fits
    simp only [State.advance,here]
    refine inv.compare (by rw [here]; rfl) rfl fun equal => ⟨fits.1,fun same => ?_⟩
    exact ⟨fits.2 same,decide_eq_true_iff.mp equal⟩
  | matchC g =>
    rw [here] at fits
    simp only [State.advance,here]
    refine inv.compare (by rw [here]; rfl) rfl fun equal => ⟨fits.1,fun same => ?_⟩
    obtain ⟨first,second⟩ := fits.2 same
    have third := decide_eq_true_iff.mp equal
    generalize s.table (bucket mask g.key) = e at first second third ⊢
    obtain ⟨⟨a,b,c⟩,res⟩ := e
    obtain ⟨⟨a',b',c'⟩,st,since⟩ := g
    simp_all
  | copy g =>
    rw [here] at fits
    simp only [State.advance,here]
    refine inv.goto (by rw [here]; rfl) ⟨fits.1,fun same => ?_⟩
    have key := fits.2 same
    generalize s.table (bucket mask g.key) = e at key ⊢
    obtain ⟨k,res⟩ := e
    exact congrArg (fun k => (⟨k,res⟩ : Entry)) key
  | check g res =>
    simp only [State.advance,here]
    exact inv.leave _ _ _ (by rw [here]; rfl)
  | enter e =>
    have none : owns mask (s.pc t) = none := by rw [here]; rfl
    simp only [State.advance,here]
    split
    next => exact inv.goto none.symm trivial
    next unlocked => exact inv.goto none.symm (Bool.eq_false_iff.mpr unlocked)
  | claim e st => exact inv.claim here
  | writeA e newS =>
    have own : owns mask (s.pc t) = some (bucket mask e.toKey) := by rw [here]; rfl
    rw [here] at fits
    simp only [State.advance,here]
    refine inv.setTable own fits _ rfl fun holding table => ⟨holding,?_⟩
    rw [table]
  | writeB e newS =>
    have own : owns mask (s.pc t) = some (bucket mask e.toKey) := by rw [here]; rfl
    rw [here] at fits
    simp only [State.advance,here]
    refine inv.setTable own fits.1 _ rfl fun holding table => ⟨holding,?_⟩
    rw [table]
    exact ⟨fits.2,rfl⟩
  | writeC e newS =>
    have own : owns mask (s.pc t) = some (bucket mask e.toKey) := by rw [here]; rfl
    rw [here] at fits
    simp only [State.advance,here]
    refine inv.setTable own fits.1 _ rfl fun holding table => ⟨holding,?_⟩
    rw [table,fits.2.1,fits.2.2]
  | writeRes e newS =>
    have own : owns mask (s.pc t) = some (bucket mask e.toKey) := by rw [here]; rfl
    rw [here] at fits
    simp only [State.advance,here]
    refine inv.setTable own fits.1 _ rfl fun holding table => ⟨holding,?_⟩
    rw [table,fits.2]
  | unlock e newS => exact inv.unlock here

theorem step {a : Act} (inv : Invariant mask s) (one : Step mask s a s') : Invariant mask s' := by
  cases one with
  | get idle => exact inv.goto (by rw [idle]; rfl) trivial
  | put idle => exact inv.goto (by rw [idle]; rfl) trivial
  | run => exact inv.advance _

theorem fresh (mask : Word) : Invariant mask .fresh where
  tags _ := show tag 0 = 0 by decide
  owner _ := iff_of_false (show ¬isLocked 0 = true by decide) (fun ⟨_,own⟩ => by cases own)
  alone _ _ _ own := by cases own
  whole _ _ := ⟨rfl,rfl⟩
  fits _ := trivial

end Invariant

/-- A get that hits, and during which its bucket was claimed less than 2^16 times. -/
theorem Invariant.hit {mask : Word} {s : State} {t : Tid} {k : Key} {x : Word} {turns : Nat} (inv : Invariant mask s)
    (hit : (s.advance mask t).log = ⟨k,some x,turns⟩ :: s.log) (few : turns < 2 ^ 16) :
    (s.stored (bucket mask k)).head? = some ⟨k,x⟩ := by
  have compared {g : Get} {same : Bool} {next : Pc} : (s.compare mask t g same next).log ≠ ⟨k,some x,turns⟩ :: s.log := by
    unfold State.compare
    split
    · simp
    · simp [State.leave]
  have fits := inv.fits t
  cases here : s.pc t with
  | idle | copy g | writeA e newS | writeB e newS | writeC e newS | writeRes e newS | unlock e newS =>
    simp [State.advance,here,State.setTable] at hit
  | matchA g | matchB g | matchC g =>
    simp only [State.advance,here] at hit
    exact absurd hit compared
  | look k' | enter e | claim e st =>
    simp only [State.advance,here] at hit
    split at hit <;> simp [State.leave] at hit
  | check g res =>
    rw [here] at fits
    obtain ⟨watching,seen⟩ := fits
    simp only [State.advance,here] at hit
    split at hit
    case isFalse => simp [State.leave] at hit
    case isTrue same =>
      obtain ⟨rfl,rfl,counted⟩ : g.key = k ∧ res = x ∧ s.turns mask g = turns := by simpa [State.leave] using hit
      -- the two counts are the same modulo 2^16, and less than 2^16 apart
      have tags := inv.tags (bucket mask g.key)
      have since := watching.since
      rw [same,watching.tag] at tags
      unfold State.turns at counted
      have current : s.claims (bucket mask g.key) = g.since := by omega
      have whole := inv.whole (bucket mask g.key) (same ▸ watching.unlocked)
      have table := seen current
      unfold Whole at whole
      split at whole
      next =>
        obtain ⟨status,blank⟩ := whole
        have zero : (⟨0,0,0⟩ : Key) = g.key := congrArg Entry.toKey (blank.symm.trans table)
        have goesOn := watching.goesOn
        rw [← same,status,← zero,refuses_blank] at goesOn
        cases goesOn
      next e older stored =>
        rw [stored,← whole,table]
        rfl

/-- A hit is the last entry that was put into the bucket, and its key is the one asked for. -/
theorem hit_is_last_put {mask : Word} {s s' : State} (run : Run (Step mask) .fresh trace s) (one : Step mask s a s')
    (hit : s'.log = ⟨k,some x,turns⟩ :: s.log) (few : turns < 2 ^ 16) : (s.stored (bucket mask k)).head? = some ⟨k,x⟩ := by
  have inv := run.invariant (Invariant mask) (fun _ _ _ => Invariant.step) (.fresh mask)
  cases one with
  | get | put => simp at hit
  | run => exact inv.hit hit few

/-- A get that began before a put and finds its bucket locked, and one that takes the entry. -/
def putThenGet : List Act :=
  [.get 1 ⟨1,2,3⟩,.put 0 ⟨⟨1,2,3⟩,4⟩,.run 0,.run 0,.run 1,.get 1 ⟨1,2,3⟩] ++ List.replicate 5 (.run 0) ++ List.replicate 5 (.run 1)

theorem hit_is_last_put_between : ∃ s s', Run (Step 1) .fresh putThenGet s ∧ Step 1 s (.run 1) s' ∧
    s'.log = ⟨⟨1,2,3⟩,some 4,0⟩ :: s.log ∧ (s.stored (bucket 1 ⟨1,2,3⟩)).head? = some ⟨⟨1,2,3⟩,4⟩ := by
  have run := run_replay (step_perform 1) (show feasible State.enabled _ .fresh putThenGet = true by decide)
  have one : Step 1 (replay (State.perform 1) .fresh putThenGet) (.run 1) _ := .run fun idle => by
    have busy : ((replay (State.perform 1) .fresh putThenGet).pc 1).isIdle = false := by decide
    rw [idle] at busy
    cases busy
  have hit : ((replay (State.perform 1) .fresh putThenGet).advance 1 1).log =
      ⟨⟨1,2,3⟩,some 4,0⟩ :: (replay (State.perform 1) .fresh putThenGet).log := by decide
  exact ⟨_,_,run,one,hit,hit_is_last_put run one hit (by decide)⟩

end Libdft.OperationCache
