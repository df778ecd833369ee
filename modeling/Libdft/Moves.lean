import Libdft.Vcpu
import Libdft.Triple

/-! Tags moved place by place, in the order of the loops that move them. What a loop wrote is
read off the places: those it went over have the new tags, if they have tags at all, and every
other place is as it was. -/
namespace Libdft.Core

open TagTraits TagOps

/-- `RTAG[row]` -/
def rtags (row : Nat) (i : Nat) : Place := .reg row i

/-- `MTAG(addr + i)` -/
def mtags (addr : BitVec 64) (i : Nat) : Place := .mem (addr + BitVec.ofNat 64 i)

@[simp] theorem mtags_zero (addr : BitVec 64) : mtags addr 0 = .mem addr := by simp [mtags]

@[simp] theorem rtags_inside : (rtags row i).Inside ↔ row ≤ grpNum ∧ i < tagsPerGpr := Iff.rfl
@[simp] theorem mtags_inside (addr : BitVec 64) : (mtags addr i).Inside := trivial
@[simp] theorem rtags_ne_mtags (addr : BitVec 64) : rtags row i ≠ mtags addr j := nofun
@[simp] theorem mtags_ne_rtags (addr : BitVec 64) : mtags addr i ≠ rtags row j := nofun

theorem rtags_inj : rtags row i = rtags row' j ↔ row = row' ∧ i = j := by simp [rtags]

theorem rtags_apart (row : Nat) {j k : Nat} (lt : j < k) : rtags row j ≠ rtags row k :=
  fun same => Nat.ne_of_lt lt (rtags_inj.mp same).2

theorem mtags_inj {addr : BitVec 64} (hi : i < 2 ^ 64) (hj : j < 2 ^ 64) :
    mtags addr i = mtags addr j ↔ i = j := by
  refine ⟨fun eq => ?_,congrArg _⟩
  have offsets : BitVec.ofNat 64 i = BitVec.ofNat 64 j := (BitVec.add_right_inj addr).mp (Place.mem.inj eq)
  have values := congrArg BitVec.toNat offsets
  rwa [BitVec.toNat_ofNat,BitVec.toNat_ofNat,Nat.mod_eq_of_lt hi,Nat.mod_eq_of_lt hj] at values

section Loops
variable {T : Type} [TagOps T]

def copy (dst src : Place) : Analysis T Unit := do assign dst (← fetch src)

/-- `dst = tag_combine(dst, src)` -/
def combine (dst src : Place) : Analysis T Unit := do assign dst (tagCombine (← fetch dst) (← fetch src))

def copyEach (n : Nat) (dst src : Nat → Place) : Analysis T Unit := forEach n fun i => copy (dst i) (src i)
def combineEach (n : Nat) (dst src : Nat → Place) : Analysis T Unit := forEach n fun i => combine (dst i) (src i)

/-- `dst[i] = tags[i]` for the whole of a local array. -/
def assignEach (n : Nat) (dst : Nat → Place) (tags : Nat → T) : Analysis T Unit :=
  forEach n fun i => assign (dst i) (tags i)

/-- `tag_t tags[] = { … }` -/
def fetchEach (n : Nat) (src : Nat → Place) : Analysis T (Nat → T) := do
  let tags ← (List.range n).mapM fun i => fetch (src i)
  return fun i => tags.getD i clearedVal

end Loops

/-! One step and one loop. -/

section Steps
variable {T : Type} {s : TagState T}

theorem fetch_ok [TagTraits T] {p : Place} {tag : T} (inside : p.Inside) (read : s.look p = some tag) :
    fetch p s = .ok (tag,s) := by
  simp [fetch,inside,read]

theorem assign_ok [TagTraits T] {p : Place} (inside : p.Inside) (tag : T) : assign p tag s = .ok ((),s.put tag p) := by
  simp [assign,inside]

theorem copy_ok [TagOps T] {dst src : Place} {tag : T} (dstInside : dst.Inside) (srcInside : src.Inside)
    (read : s.look src = some tag) : copy dst src s = .ok ((),s.put tag dst) := by
  rw [copy,bind_ok (fetch_ok srcInside read),assign_ok dstInside]

theorem combine_ok [TagOps T] {dst src : Place} {old tag : T} (dstInside : dst.Inside) (srcInside : src.Inside)
    (readDst : s.look dst = some old) (read : s.look src = some tag) :
    combine dst src s = .ok ((),s.put (tagCombine old tag) dst) := by
  rw [combine,bind_ok (fetch_ok dstInside readDst),bind_ok (fetch_ok srcInside read),assign_ok dstInside]

theorem forEach_one (body : Nat → Analysis T Unit) : forEach 1 body = body 0 := by simp [forEach]

theorem forEach_succ (n : Nat) (body : Nat → Analysis T Unit) :
    forEach (n + 1) body = (do forEach n body; body n) := by
  simp [forEach,List.range_succ]

theorem forEach_succ_ok {body : Nat → Analysis T Unit} {t : TagState T}
    (before : forEach n body s = .ok ((),t)) : forEach (n + 1) body s = body n t := by
  rw [forEach_succ,bind_ok before]

theorem forEach_ends {body : Nat → Analysis T Unit} (inv : Nat → TagState T → Prop) (start : inv 0 s)
    (step : ∀ k < n, ∀ t, inv k t → ∃ t', body k t = .ok ((),t') ∧ inv (k + 1) t') :
    ∃ s', forEach n body s = .ok ((),s') ∧ inv n s' := by
  induction n with
  | zero => exact ⟨s,rfl,start⟩
  | succ n ih =>
    obtain ⟨t,run,holds⟩ := ih fun k small => step k (Nat.lt_succ_of_lt small)
    obtain ⟨t',last,holds'⟩ := step n (Nat.lt_succ_self n) t holds
    exact ⟨t',(forEach_succ_ok run).trans last,holds'⟩

/-- Every round of a loop that ended has ended. -/
theorem forEach_rounds {body : Nat → Analysis T Unit} {s' : TagState T} (run : forEach n body s = .ok ((),s')) :
    ∀ k < n, ∃ t t', body k t = .ok ((),t') := by
  induction n generalizing s' with
  | zero => nofun
  | succ n ih =>
    rw [forEach_succ] at run
    obtain ⟨⟨⟩,t,before,last⟩ := bind_eq_ok run
    intro k small
    rcases Nat.lt_succ_iff_lt_or_eq.mp small with earlier | rfl
    · exact ih before k earlier
    · exact ⟨t,s',last⟩

theorem forEach_congr {body body' : Nat → Analysis T Unit} (same : ∀ k < n, body k = body' k) :
    forEach n body = forEach n body' := by
  induction n with
  | zero => rfl
  | succ n ih =>
    rw [forEach_succ,forEach_succ,ih fun k small => same k (Nat.lt_succ_of_lt small),same n (Nat.lt_succ_self n)]

theorem forEach_add (m n : Nat) (body : Nat → Analysis T Unit) :
    forEach (m + n) body = (do forEach m body; forEach n fun i => body (m + i)) := by
  simp [forEach,List.range_add]

/-- A loop whose first round alone does something. -/
theorem forEach_first {body : Nat → Analysis T Unit} (positive : 0 < n) (rest : ∀ k < n, 0 < k → body k = pure ()) :
    forEach n body = body 0 := by
  induction n with
  | zero => exact absurd positive (Nat.lt_irrefl 0)
  | succ n ih =>
    rcases Nat.eq_zero_or_pos n with rfl | more
    · exact forEach_one body
    · rw [forEach_succ,ih more fun k small => rest k (Nat.lt_succ_of_lt small),rest n (Nat.lt_succ_self n) more]
      simp

/-- A loop of `n` rounds of `w` steps is one loop. -/
theorem forEach_mul (n w : Nat) (body : Nat → Nat → Analysis T Unit) :
    forEach (n * w) (fun i => body (i / w) (i % w)) = forEach n fun k => forEach w (body k) := by
  induction n with
  | zero => simp [forEach]
  | succ n ih =>
    have round : forEach w (fun i => body ((n * w + i) / w) ((n * w + i) % w)) = forEach w (body n) := by
      apply forEach_congr
      intro j small
      have positive : 0 < w := Nat.lt_of_le_of_lt (Nat.zero_le j) small
      rw [Nat.mul_comm n w,Nat.mul_add_div positive,Nat.mul_add_mod,Nat.div_eq_of_lt small,
        Nat.mod_eq_of_lt small,Nat.add_zero]
    rw [Nat.succ_mul,forEach_add,forEach_succ,ih,round]

end Steps

theorem copyEach_one {T : Type} [TagOps T] (dst src : Nat → Place) :
    (copyEach 1 dst src : Analysis T Unit) = copy (dst 0) (src 0) := forEach_one _

theorem combineEach_one {T : Type} [TagOps T] (dst src : Nat → Place) :
    (combineEach 1 dst src : Analysis T Unit) = combine (dst 0) (src 0) := forEach_one _

/-- What a loop over `n` places did: `s'` is `s` with the tags `v` written to them. -/
structure Wrote {T : Type} [TagTraits T] (s s' : TagState T) (n : Nat) (dst : Nat → Place) (v : Nat → T) : Prop where
  hit : ∀ k < n, s'.look (dst k) = (s.look (dst k)).map fun _ => v k
  frame : ∀ p, (∀ k < n, p ≠ dst k) → s'.look p = s.look p

namespace Wrote
variable {T : Type} [TagTraits T] {s s' s'' t : TagState T} {dst : Nat → Place} {v : Nat → T}

theorem refl : Wrote s s 0 dst v := ⟨nofun,fun _ _ => rfl⟩

theorem isSome (wrote : Wrote s s' n dst v) (p : Place) : (s'.look p).isSome = (s.look p).isSome := by
  by_cases any : ∃ k < n, p = dst k
  · obtain ⟨k,small,rfl⟩ := any
    rw [wrote.hit k small,Option.isSome_map]
  · rw [wrote.frame p fun k small eq => any ⟨k,small,eq⟩]

/-- One more place; where it was written before, the tag is the same. -/
theorem snoc (wrote : Wrote s t n dst v) (agree : ∀ k < n, dst k = dst n → v k = v n) :
    Wrote s (t.put (v n) (dst n)) (n + 1) dst v := by
  constructor
  · intro k small
    rw [TagState.look_put]
    rcases Nat.lt_succ_iff_lt_or_eq.mp small with earlier | rfl
    · by_cases same : dst k = dst n
      · rw [if_pos same,wrote.hit k earlier,agree k earlier same,Option.map_map]
        rfl
      · rw [if_neg same,wrote.hit k earlier]
    · by_cases earlier : ∃ j < k, dst k = dst j
      · obtain ⟨j,small,same⟩ := earlier
        rw [if_pos rfl,same,wrote.hit j small,Option.map_map]
        rfl
      · rw [if_pos rfl,wrote.frame _ fun j small same => earlier ⟨j,small,same⟩]
  · intro p apart
    rw [TagState.look_put,if_neg (apart n (Nat.lt_succ_self n)),
      wrote.frame p fun k small => apart k (Nat.lt_succ_of_lt small)]

theorem one (s : TagState T) (dst : Nat → Place) (v : Nat → T) : Wrote s (s.put (v 0) (dst 0)) 1 dst v :=
  snoc refl fun _ => nofun

/-- Places written again, with others after them. -/
theorem rewritten (first : Wrote s t m dst v) {v' : Nat → T} (second : Wrote t s' n dst v') (le : m ≤ n) : Wrote s s' n dst v' := by
  constructor
  · intro k small
    rw [second.hit k small]
    have tagged := first.isSome (dst k)
    cases before : s.look (dst k) <;> cases between : t.look (dst k) <;> simp_all
  · intro p apart
    rw [second.frame p apart,first.frame p fun k small => apart k (Nat.lt_of_lt_of_le small le)]

/-- Two ways to write the same tags to the same places look alike. -/
theorem look_eq (wrote : Wrote s s' n dst v) {m : Nat} {dst' : Nat → Place} {v' : Nat → T}
    (wrote' : Wrote s s'' m dst' v') (covers : ∀ k < n, ∃ j < m, dst' j = dst k ∧ v' j = v k)
    (covered : ∀ j < m, ∃ k < n, dst k = dst' j) (p : Place) : s'.look p = s''.look p := by
  by_cases any : ∃ k < n, p = dst k
  · obtain ⟨k,small,rfl⟩ := any
    obtain ⟨j,small',place,tag⟩ := covers k small
    rw [wrote.hit k small,← place,wrote'.hit j small',tag]
  · rw [wrote.frame p fun k small eq => any ⟨k,small,eq⟩,wrote'.frame p]
    rintro j small rfl
    obtain ⟨k,small',same⟩ := covered j small
    exact any ⟨k,small',same.symm⟩

end Wrote

/-! Loops that end, and what they wrote. -/

section Runs
variable {T : Type} [TagOps T] {s : TagState T} {dst src : Nat → Place} {v : Nat → T}

theorem forEach_wrote {body : Nat → Analysis T Unit} (agree : ∀ j k, j < k → k < n → dst j = dst k → v j = v k)
    (step : ∀ k < n, ∀ t, Wrote s t k dst v → body k t = .ok ((),t.put (v k) (dst k))) :
    ∃ s', forEach n body s = .ok ((),s') ∧ Wrote s s' n dst v := by
  refine forEach_ends (fun k t => Wrote s t k dst v) .refl fun k small t wrote => ?_
  exact ⟨_,step k small t wrote,wrote.snoc fun j below => agree j k below small⟩

theorem assignEach_wrote (dst : Nat → Place) (tags : Nat → T) (agree : ∀ j k, j < k → k < n → dst j = dst k → tags j = tags k)
    (inside : ∀ k < n, (dst k).Inside) :
    ∃ s', assignEach n dst tags s = .ok ((),s') ∧ Wrote s s' n dst tags :=
  forEach_wrote agree fun k small _ _ => assign_ok (inside k small) _

/-- No place is read after another round of the loop has written it. -/
theorem copyEach_wrote (dst src : Nat → Place) (agree : ∀ j k, j < k → k < n → dst j = dst k → v j = v k)
    (fresh : ∀ j k, j < k → k < n → dst j = src k → v j = v k) (dstInside : ∀ k < n, (dst k).Inside)
    (srcInside : ∀ k < n, (src k).Inside) (read : ∀ k < n, s.look (src k) = some (v k)) :
    ∃ s', copyEach n dst src s = .ok ((),s') ∧ Wrote s s' n dst v := by
  apply forEach_wrote agree
  intro k small t wrote
  apply copy_ok (dstInside k small) (srcInside k small)
  by_cases any : ∃ j < k, src k = dst j
  · obtain ⟨j,lt,same⟩ := any
    have tag := read k small
    rw [same] at tag ⊢
    rw [wrote.hit j lt,tag,fresh j k lt small same.symm]
    rfl
  · rw [wrote.frame _ fun j lt same => any ⟨j,lt,same⟩,read k small]

theorem combineEach_wrote (old : Nat → T) (apart : ∀ j k, j < k → k < n → dst j ≠ dst k)
    (fresh : ∀ j k, j < k → k < n → dst j ≠ src k) (dstInside : ∀ k < n, (dst k).Inside)
    (srcInside : ∀ k < n, (src k).Inside) (readDst : ∀ k < n, s.look (dst k) = some (old k))
    (read : ∀ k < n, s.look (src k) = some (v k)) :
    ∃ s', combineEach n dst src s = .ok ((),s') ∧ Wrote s s' n dst fun k => tagCombine (old k) (v k) := by
  apply forEach_wrote fun j k lt small same => absurd same (apart j k lt small)
  intro k small t wrote
  apply combine_ok (dstInside k small) (srcInside k small)
  · rw [wrote.frame _ fun j lt same => apart j k lt small same.symm,readDst k small]
  · rw [wrote.frame _ fun j lt same => fresh j k lt small same.symm,read k small]

theorem fetchEach_ok (src : Nat → Place) (inside : ∀ k < n, (src k).Inside) (read : ∀ k < n, s.look (src k) = some (v k)) :
    ∃ tags, fetchEach n src s = .ok (tags,s) ∧ ∀ k < n, tags k = v k := by
  have fetched (places : List Nat) (below : ∀ k ∈ places, k < n) :
      (places.mapM fun k => (fetch (src k) : Analysis T T)) s = .ok (places.map v,s) := by
    induction places with
    | nil => rfl
    | cons k places ih =>
      have small := below k (by simp)
      have rest := ih fun j mem => below j (by simp [mem])
      rw [List.mapM_cons]
      rw [bind_ok (fetch_ok (inside k small) (read k small)),bind_ok rest]
      rfl
  refine ⟨fun k => ((List.range n).map v).getD k clearedVal,?_,fun k small => ?_⟩
  · rw [fetchEach,bind_ok (fetched _ fun k => List.mem_range.mp)]
    rfl
  · simp [List.getD,small]

/-- Tags that are all read before the first of them is written. -/
theorem moveEach_wrote (dst src : Nat → Place) (apart : ∀ j k, j < k → k < n → dst j ≠ dst k)
    (dstInside : ∀ k < n, (dst k).Inside) (srcInside : ∀ k < n, (src k).Inside)
    (read : ∀ k < n, s.look (src k) = some (v k)) :
    ∃ s', (do let tags ← fetchEach n src; assignEach n dst tags : Analysis T Unit) s = .ok ((),s') ∧
      Wrote s s' n dst v := by
  obtain ⟨tags,fetched,same⟩ := fetchEach_ok src srcInside read
  obtain ⟨s',assigned,wrote⟩ := assignEach_wrote (s := s) dst tags
    (fun j k lt small eq => absurd eq (apart j k lt small)) dstInside
  refine ⟨s',?_,fun k small => ?_,wrote.frame⟩
  · rw [bind_ok fetched,assigned]
  · rw [wrote.hit k small,same k small]

end Runs

/-- What was written to two operands of `n` places, the second after the first where they meet. -/
structure WroteBoth {T : Type} [TagTraits T] (s s' : TagState T) (n : Nat) (a : Nat → Place) (u : Nat → T) (b : Nat → Place)
    (v : Nat → T) : Prop where
  first : ∀ k < n, (∀ j < n, a k ≠ b j) → s'.look (a k) = (s.look (a k)).map fun _ => u k
  second : ∀ k < n, s'.look (b k) = (s.look (b k)).map fun _ => v k
  frame : ∀ p, (∀ k < n, p ≠ a k) → (∀ k < n, p ≠ b k) → s'.look p = s.look p

section Both
variable {T : Type} [TagOps T] {s : TagState T} {a b : Nat → Place} {u v : Nat → T}

theorem Wrote.both {t s' : TagState T} (first : Wrote s t n a u) (second : Wrote t s' n b v) : WroteBoth s s' n a u b v := by
  constructor
  · intro k small apart
    rw [second.frame _ apart,first.hit k small]
  · intro k small
    have tagged := first.isSome (b k)
    rw [second.hit k small]
    cases before : s.look (b k) <;> cases between : t.look (b k) <;> simp_all
  · intro p outside outside'
    rw [second.frame p outside',first.frame p outside]

/-- Operands that do not meet may be written in either order. -/
theorem WroteBoth.symm {s' : TagState T} (wrote : WroteBoth s s' n a u b v) (apart : ∀ j < n, ∀ k < n, a j ≠ b k) :
    WroteBoth s s' n b v a u :=
  ⟨fun k small _ => wrote.second k small,fun k small => wrote.first k small (apart k small),
    fun p outside outside' => wrote.frame p outside' outside⟩

theorem WroteBoth.snoc {t : TagState T} (wrote : WroteBoth s t n a u b v) (apart : ∀ k < n, a k ≠ a n)
    (apart' : ∀ k < n, b k ≠ b n) (ahead : ∀ k < n, a n ≠ b k) :
    WroteBoth s ((t.put (u n) (a n)).put (v n) (b n)) (n + 1) a u b v := by
  constructor
  · intro k small free
    rw [TagState.look_put,if_neg (free n (Nat.lt_succ_self n)),TagState.look_put]
    rcases Nat.lt_succ_iff_lt_or_eq.mp small with earlier | rfl
    · rw [if_neg (apart k earlier),wrote.first k earlier fun j below => free j (Nat.lt_succ_of_lt below)]
    · rw [if_pos rfl,wrote.frame (a k) (fun j below => (apart j below).symm) ahead]
  · intro k small
    rw [TagState.look_put]
    rcases Nat.lt_succ_iff_lt_or_eq.mp small with earlier | rfl
    · rw [if_neg (apart' k earlier),TagState.look_put,if_neg (ahead k earlier).symm,wrote.second k earlier]
    · rw [if_pos rfl,TagState.look_put]
      have kept : (t.look (b k)).isSome = (s.look (b k)).isSome := by
        by_cases old : ∃ j < k, b k = a j
        · obtain ⟨j,below,same⟩ := old
          rw [same,wrote.first j below fun i low => same ▸ (apart' i low).symm,Option.isSome_map]
        · rw [wrote.frame _ (fun j below same => old ⟨j,below,same⟩) fun j below => (apart' j below).symm]
      split <;> cases before : s.look (b k) <;> cases between : t.look (b k) <;> simp_all
  · intro p outside outside'
    have last := Nat.lt_succ_self n
    rw [TagState.look_put,if_neg (outside' n last),TagState.look_put,if_neg (outside n last),
      wrote.frame p (fun k small => outside k (Nat.lt_succ_of_lt small)) fun k small => outside' k (Nat.lt_succ_of_lt small)]

/-- One loop over two operands that only meet in places of one number. -/
theorem assignBoth_wrote (u v : Nat → T) (apart : ∀ j k, j < k → k < n → a j ≠ a k) (apart' : ∀ j k, j < k → k < n → b j ≠ b k)
    (ahead : ∀ j k, j < k → k < n → a k ≠ b j) (inside : ∀ k < n, (a k).Inside) (inside' : ∀ k < n, (b k).Inside) :
    ∃ s', forEach n (fun i => do assign (a i) (u i); assign (b i) (v i)) s = .ok ((),s') ∧ WroteBoth s s' n a u b v := by
  refine forEach_ends (fun k t => WroteBoth s t k a u b v) ⟨nofun,nofun,fun _ _ _ => rfl⟩ fun k small t wrote => ?_
  refine ⟨_,?_,wrote.snoc (fun j below => apart j k below small) (fun j below => apart' j k below small)
    fun j below => ahead j k below small⟩
  rw [bind_ok (assign_ok (inside k small) _),assign_ok (inside' k small)]

end Both

end Libdft.Core
