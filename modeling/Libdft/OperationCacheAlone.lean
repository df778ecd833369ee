import Libdft.OperationCacheThreads

/-! One get or put at a time, and what a get may return that is overtaken by as many puts as the
status word can count. -/
namespace Libdft.OperationCache

/-- What a get finds that nothing overtakes. -/
def State.found (mask : Word) (s : State) (k : Key) : Option Word :=
  if refuses (s.status (bucket mask k)) k ∨ (s.table (bucket mask k)).toKey ≠ k then none else some (s.table (bucket mask k)).res

/-- After a put that nothing overtakes. -/
def State.after (mask : Word) (s : State) (e : Entry) : State :=
  let q := bucket mask e.toKey
  { s with
    status := Function.update s.status q (nextStatus (s.status q) e.toKey)
    table := Function.update s.table q e
    claims := Function.update s.claims q (s.claims q + 1)
    stored := Function.update s.stored q (e :: s.stored q) }

section Alone
variable {mask : Word} {s : State} {t : Tid}

/-- A put locks its bucket, writes and unlocks. -/
theorem put_alone (idle : s.pc t = .idle) (e : Entry) (unlocked : isLocked (s.status (bucket mask e.toKey)) = false) :
    Run (Step mask) s (.put t e :: List.replicate 7 (.run t)) (s.after mask e) := by
  have last : replay (State.perform mask) s (.put t e :: List.replicate 7 (.run t)) = s.after mask e := by
    simp [replay,State.perform,State.advance,State.goto,State.setTable,State.after,unlocked,List.replicate,← idle]
  rw [← last]
  refine run_replay (step_perform mask) ?_
  simp [feasible,State.enabled,State.perform,State.advance,State.goto,State.setTable,unlocked,List.replicate,idle,Pc.isIdle]

/-- A get that finds its key. -/
theorem match_alone (idle : s.pc t = .idle) (k : Key) (taken : refuses (s.status (bucket mask k)) k = false)
    (same : (s.table (bucket mask k)).toKey = k) :
    Run (Step mask) s (.get t k :: List.replicate 4 (.run t)) (s.goto t (.copy ⟨k,s.status (bucket mask k),s.claims (bucket mask k)⟩)) := by
  have a : (s.table (bucket mask k)).a = k.a := congrArg Key.a same
  have b : (s.table (bucket mask k)).b = k.b := congrArg Key.b same
  have c : (s.table (bucket mask k)).c = k.c := congrArg Key.c same
  have last : replay (State.perform mask) s (.get t k :: List.replicate 4 (.run t)) =
      s.goto t (.copy ⟨k,s.status (bucket mask k),s.claims (bucket mask k)⟩) := by
    simp [replay,State.perform,State.advance,State.goto,State.compare,List.replicate,taken,a,b,c]
  rw [← last]
  refine run_replay (step_perform mask) ?_
  simp [feasible,State.enabled,State.perform,State.advance,State.goto,State.compare,List.replicate,taken,a,b,idle,Pc.isIdle]

/-- A get ends, and leaves the cache as it was. -/
theorem get_alone (idle : s.pc t = .idle) (k : Key) :
    ∃ n, Run (Step mask) s (.get t k :: List.replicate n (.run t)) { s with log := ⟨k,s.found mask k,0⟩ :: s.log } := by
  have ends (n : Nat) (last : replay (State.perform mask) s (.get t k :: List.replicate n (.run t)) =
      { s with log := ⟨k,s.found mask k,0⟩ :: s.log })
      (possible : feasible State.enabled (State.perform mask) s (.get t k :: List.replicate n (.run t)) = true) :
      ∃ n, Run (Step mask) s (.get t k :: List.replicate n (.run t)) { s with log := ⟨k,s.found mask k,0⟩ :: s.log } :=
    ⟨n,last ▸ run_replay (step_perform mask) possible⟩
  by_cases refused : refuses (s.status (bucket mask k)) k = true
  · refine ends 1 ?_ ?_
    · simp [replay,State.perform,State.advance,State.goto,State.leave,State.found,refused,← idle]
    · simp [feasible,State.enabled,State.perform,State.goto,idle,Pc.isIdle]
  rw [Bool.not_eq_true] at refused
  by_cases a : (s.table (bucket mask k)).a = k.a
  · by_cases b : (s.table (bucket mask k)).b = k.b
    · by_cases c : (s.table (bucket mask k)).c = k.c
      · have same : (s.table (bucket mask k)).toKey = k := Key.ext a b c
        refine ends 6 ?_ ?_
        · simp [replay,State.perform,State.advance,State.goto,State.leave,State.compare,State.turns,State.found,List.replicate,refused,same,← idle]
        · simp [feasible,State.enabled,State.perform,State.advance,State.goto,State.compare,List.replicate,refused,a,b,c,idle,Pc.isIdle]
      · have other : (s.table (bucket mask k)).toKey ≠ k := fun same => c (congrArg Key.c same)
        refine ends 4 ?_ ?_
        · simp [replay,State.perform,State.advance,State.goto,State.leave,State.compare,State.turns,State.found,List.replicate,refused,a,b,c,other,← idle]
        · simp [feasible,State.enabled,State.perform,State.advance,State.goto,State.compare,List.replicate,refused,a,b,idle,Pc.isIdle]
    · have other : (s.table (bucket mask k)).toKey ≠ k := fun same => b (congrArg Key.b same)
      refine ends 3 ?_ ?_
      · simp [replay,State.perform,State.advance,State.goto,State.leave,State.compare,State.turns,State.found,List.replicate,refused,a,b,other,← idle]
      · simp [feasible,State.enabled,State.perform,State.advance,State.goto,State.compare,List.replicate,refused,a,idle,Pc.isIdle]
  · have other : (s.table (bucket mask k)).toKey ≠ k := fun same => a (congrArg Key.a same)
    refine ends 2 ?_ ?_
    · simp [replay,State.perform,State.advance,State.goto,State.leave,State.compare,State.turns,State.found,List.replicate,refused,a,other,← idle]
    · simp [feasible,State.enabled,State.perform,State.advance,State.goto,List.replicate,refused,idle,Pc.isIdle]

/-- What is found after a put is what it stored, or was there before. -/
theorem found_after {e : Entry} {k : Key} {x : Word} (hit : (s.after mask e).found mask k = some x) :
    (k = e.toKey ∧ x = e.res) ∨ s.found mask k = some x := by
  by_cases same : bucket mask k = bucket mask e.toKey
  · refine .inl ?_
    simp only [State.found,State.after,same,Function.update_self] at hit
    split at hit
    · cases hit
    next taken =>
      rw [not_or,not_not] at taken
      exact ⟨taken.2.symm,(Option.some.inj hit).symm⟩
  · refine .inr ?_
    simpa only [State.found,State.after,Function.update_of_ne same] using hit

theorem after_unlocked (unlocked : ∀ q, isLocked (s.status q) = false) (e : Entry) (q : Nat) :
    isLocked ((s.after mask e).status q) = false := by
  by_cases same : q = bucket mask e.toKey
  · simp only [State.after,same,Function.update_self]
    exact isLocked_nextStatus _ _
  · simpa only [State.after,Function.update_of_ne same] using unlocked q

end Alone

/-! A get that the count of puts comes round on. -/

/-- The status word of an unlocked bucket after so many puts. -/
def counted (n : Nat) (k : Key) : Status := (BitVec.ofNat 32 n &&& tagBits) ||| hashMask k

theorem counted_unlocked (n : Nat) (k : Key) : isLocked (counted n k) = false := by
  have next := isLocked_nextStatus (BitVec.ofNat 32 n - 1) k
  rwa [nextStatus,BitVec.sub_add_cancel] at next

theorem tag_ofNat (n : Nat) : tag (BitVec.ofNat 32 n) = n % 2 ^ 16 := by
  rw [tag_eq,BitVec.toNat_ofNat,Nat.mod_mod_of_dvd _ (Nat.pow_dvd_pow 2 (by decide))]

theorem tag_counted (n : Nat) (k : Key) : tag (counted n k) = n % 2 ^ 16 := by
  have apart : hashBits &&& tagBits = 0 := by decide
  have low : counted n k &&& tagBits = BitVec.ofNat 32 n &&& tagBits := by
    rw [counted,hashMask,BitVec.and_or_distrib_right,BitVec.and_assoc,BitVec.and_assoc,apart,BitVec.and_self]
    simp
  rw [← tag_ofNat,tag,tag,low]

theorem nextStatus_counted (n : Nat) (k k' : Key) : nextStatus (counted n k) k' = counted (n + 1) k' := by
  have low : (counted n k + 1) &&& tagBits = BitVec.ofNat 32 (n + 1) &&& tagBits := by
    apply BitVec.eq_of_toNat_eq
    show tag (counted n k + 1) = tag (BitVec.ofNat 32 (n + 1))
    rw [tag_succ,tag_counted,tag_ofNat,Nat.mod_add_mod]
  rw [nextStatus,low,counted]

theorem counted_round (n : Nat) (k : Key) : counted (n + 2 ^ 16) k = counted n k := by
  have low : BitVec.ofNat 32 (n + 2 ^ 16) &&& tagBits = BitVec.ofNat 32 n &&& tagBits := by
    apply BitVec.eq_of_toNat_eq
    show tag _ = tag _
    rw [tag_ofNat,tag_ofNat,Nat.add_mod_right]
  rw [counted,counted,low]

theorem xor_and (x y m : Status) : (x ^^^ y) &&& m = (x &&& m) ^^^ (y &&& m) := by
  apply BitVec.eq_of_getLsbD_eq
  intro i _
  simp [Bool.and_xor_distrib_right]

theorem counted_taken (n : Nat) (k : Key) : refuses (counted n k) k = false := by
  have apart : tagBits &&& busyBits = 0 := by decide
  have apart' : hashBits &&& busyBits = 0 := by decide
  have apart'' : tagBits &&& hashBits = 0 := by decide
  have free : counted n k &&& busyBits = 0 := by
    rw [counted,hashMask,BitVec.and_or_distrib_right,BitVec.and_assoc,BitVec.and_assoc,apart,apart']
    simp
  have same : counted n k &&& hashBits = hashMask k := by
    rw [counted,hashMask,BitVec.and_or_distrib_right,BitVec.and_assoc,BitVec.and_assoc,apart'',BitVec.and_self]
    simp
  rw [refuses,decide_eq_false_iff_not,not_or,not_not,not_not]
  refine ⟨free,?_⟩
  rw [xor_and,same,hashMask,BitVec.xor_self]
  rfl

/-- Puts of one entry, as far as one bucket is concerned. -/
structure Repeated (mask : Word) (e : Entry) (s : State) (n : Nat) (s' : State) : Prop where
  pc : s'.pc = s.pc
  log : s'.log = s.log
  claims : s'.claims (bucket mask e.toKey) = s.claims (bucket mask e.toKey) + n
  status : s'.status (bucket mask e.toKey) = counted (s.claims (bucket mask e.toKey) + n) e.toKey
  table : 0 < n → s'.table (bucket mask e.toKey) = e
  stored : ∀ x ∈ s'.stored (bucket mask e.toKey), x = e ∨ x ∈ s.stored (bucket mask e.toKey)

theorem puts_alone {mask : Word} {s : State} {t : Tid} (idle : s.pc t = .idle) (e : Entry)
    (status : s.status (bucket mask e.toKey) = counted (s.claims (bucket mask e.toKey)) e.toKey) (n : Nat) :
    ∃ trace s', Run (Step mask) s trace s' ∧ Repeated mask e s n s' := by
  induction n with
  | zero => exact ⟨_,_,.nil,rfl,rfl,rfl,status,fun none => absurd none (Nat.lt_irrefl 0),fun _ => .inr⟩
  | succ n ih =>
    obtain ⟨trace,s',run,before⟩ := ih
    have unlocked : isLocked (s'.status (bucket mask e.toKey)) = false := by
      rw [before.status]
      exact counted_unlocked _ _
    have put := put_alone (before.pc ▸ idle : s'.pc t = .idle) e unlocked
    refine ⟨_,_,run.append put,before.pc,before.log,?_,?_,fun _ => Function.update_self ..,fun x member => ?_⟩
    · simp only [State.after,Function.update_self,before.claims,Nat.add_assoc]
    · simp only [State.after,Function.update_self,before.status,nextStatus_counted,Nat.add_assoc]
    · simp only [State.after,Function.update_self,List.mem_cons] at member
      exact member.elim .inl (before.stored x)

section Overtaken
variable {mask : Word} {e e' : Entry} (place : bucket mask e'.toKey = bucket mask e.toKey) (hash : hashMask e'.toKey = hashMask e.toKey)
include place hash

/-- A get that has compared its key before the puts, and reads the result after them. -/
theorem overtaken {n : Nat} (some : 0 < n) (round : counted (1 + n) e.toKey = counted 1 e.toKey) :
    ∃ trace s, Run (Step mask) .fresh trace s ∧ s.log = [⟨e.toKey,e'.res,n⟩] ∧ ∀ x ∈ s.stored (bucket mask e.toKey), x = e ∨ x = e' := by
  have put : Run (Step mask) .fresh (.put 1 e :: List.replicate 7 (.run 1)) (State.fresh.after mask e) :=
    put_alone rfl e (show isLocked 0 = false by decide)
  have status : (State.fresh.after mask e).status (bucket mask e.toKey) = counted 1 e.toKey := Function.update_self ..
  have claims : (State.fresh.after mask e).claims (bucket mask e.toKey) = 1 := Function.update_self ..
  have key : ((State.fresh.after mask e).table (bucket mask e.toKey)).toKey = e.toKey := congrArg Entry.toKey (Function.update_self ..)
  have idle (t : Tid) : (State.fresh.after mask e).pc t = .idle := rfl
  have empty : (State.fresh.after mask e).log = [] := rfl
  have stored : (State.fresh.after mask e).stored (bucket mask e.toKey) = [e] := Function.update_self ..
  generalize State.fresh.after mask e = s at put status claims key idle empty stored
  have first := match_alone (idle 0) e.toKey (status ▸ counted_taken 1 e.toKey) key
  rw [status,claims] at first
  have other : (s.goto 0 (.copy ⟨e.toKey,counted 1 e.toKey,1⟩)).pc 1 = .idle := (s.goto_other 0 _ (by decide)).trans (idle 1)
  have same : counted 1 e.toKey = counted 1 e'.toKey := by rw [counted,counted,hash]
  have start : (s.goto 0 (.copy ⟨e.toKey,counted 1 e.toKey,1⟩)).status (bucket mask e'.toKey) =
      counted ((s.goto 0 (.copy ⟨e.toKey,counted 1 e.toKey,1⟩)).claims (bucket mask e'.toKey)) e'.toKey := by
    rw [place]
    simp [status,claims,same]
  obtain ⟨trace,s',puts,after⟩ := puts_alone other e' start n
  obtain ⟨pc,log,claims',status',table',stored'⟩ := after
  rw [place] at claims' status' table' stored'
  have copying : s'.pc 0 = .copy ⟨e.toKey,counted 1 e.toKey,1⟩ := by rw [pc,State.goto_self]
  have back : s'.status (bucket mask e.toKey) = counted 1 e.toKey := by
    rw [status']
    simp only [State.goto_claims,claims]
    rw [counted,hash,← counted,round]
  have ended : Run (Step mask) s' [.run 0,.run 0] (replay (State.perform mask) s' [.run 0,.run 0]) := run_replay (step_perform mask) (by
    simp [feasible,State.enabled,State.perform,State.advance,State.goto,copying,Pc.isIdle])
  refine ⟨_,_,put.append (first.append (puts.append ended)),?_,?_⟩
  · simp [replay,State.perform,State.advance,State.goto,State.leave,State.turns,copying,back,table' some,claims',claims,log,empty]
  · intro x member
    have kept : x ∈ s'.stored (bucket mask e.toKey) := by
      simpa [replay,State.perform,State.advance,State.goto,State.leave,copying] using member
    rcases stored' x kept with here | before
    · exact .inr here
    · rw [State.goto_stored,stored] at before
      exact .inl (List.mem_singleton.mp before)

/-- With 2^16 puts during a get the count comes round: where two keys have their bucket and the
hash of the status word in common, the get may return what was put for the other key. -/
theorem count_comes_round : ∃ trace s, Run (Step mask) .fresh trace s ∧ s.log = [⟨e.toKey,e'.res,2 ^ 16⟩] ∧
    ∀ x ∈ s.stored (bucket mask e.toKey), x = e ∨ x = e' :=
  overtaken place hash (by decide) (counted_round 1 e.toKey)

end Overtaken

theorem count_comes_round_4096 : ∃ trace s, Run (Step 0xfff) .fresh trace s ∧ s.log = [⟨⟨1130497,0,0⟩,some 20,2 ^ 16⟩] ∧
    ∀ x ∈ s.stored (bucket 0xfff ⟨1130497,0,0⟩), x = ⟨⟨1130497,0,0⟩,10⟩ ∨ x = ⟨⟨163835905,0,0⟩,20⟩ := by
  have place : bucket 0xfff (⟨⟨163835905,0,0⟩,20⟩ : Entry).toKey = bucket 0xfff (⟨⟨1130497,0,0⟩,10⟩ : Entry).toKey := by decide
  have hash : hashMask (⟨⟨163835905,0,0⟩,20⟩ : Entry).toKey = hashMask (⟨⟨1130497,0,0⟩,10⟩ : Entry).toKey := by decide
  exact count_comes_round place hash

end Libdft.OperationCache
