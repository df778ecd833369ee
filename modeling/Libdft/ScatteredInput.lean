import Libdft.DefaultHandling
import Libdft.Loop

/-! Input that a call has scattered over the buffers of an array of `struct iovec`. Three hooks go
over such an array with loops of their own; they differ in the counter, in what they load for
their tests and in a comparison. What they hand to `tagmap_clrn` is taken before the length is
converted. -/
namespace Libdft.ScatteredInput

open Syscall SyscallTable SyscallApi TagMap TagTraits

/-! Buffers, and the first bytes of them. -/

/-- A base and a length. -/
abbrev Buffer := BitVec 64 × Nat

/-- The addresses of a buffer's bytes. -/
def bytes (buf : Buffer) : List (BitVec 64) := (List.range buf.2).map fun k => buf.1 + BitVec.ofNat 64 k

/-- The parts of the buffers that `n` bytes go to. -/
def parts : List Buffer → Nat → List Buffer
  | [], _ => []
  | buf :: bufs, n => if 0 < n then (buf.1,min n buf.2) :: parts bufs (n - min n buf.2) else []

theorem bytes_length (buf : Buffer) : (bytes buf).length = buf.2 := by simp [bytes]

theorem bytes_min (base : BitVec 64) (n len : Nat) : bytes (base,min n len) = (bytes (base,len)).take n := by
  simp [bytes,← List.map_take,List.take_range]

theorem parts_bytes (bufs : List Buffer) (n : Nat) : (parts bufs n).flatMap bytes = (bufs.flatMap bytes).take n := by
  induction bufs generalizing n with
  | nil => simp [parts]
  | cons buf bufs ih =>
    unfold parts
    split
    next some =>
      have rest : n - min n buf.2 = n - buf.2 := by omega
      rw [List.flatMap_cons,List.flatMap_cons,ih,bytes_min,List.take_append,bytes_length,rest]
    next none =>
      obtain rfl : n = 0 := by omega
      simp

/-- The calls hand on the first `n` bytes of the buffers in order, of each buffer a prefix. -/
structure Delivers (bufs : List Buffer) (n : Nat) (calls : List Buffer) : Prop where
  payload : calls.flatMap bytes = (bufs.flatMap bytes).take n
  prefixes : List.Forall₂ (fun call buf : Buffer => call.1 = buf.1 ∧ call.2 ≤ buf.2) calls (bufs.take calls.length)

theorem parts_delivers (bufs : List Buffer) (n : Nat) : Delivers bufs n (parts bufs n) := by
  refine ⟨parts_bytes bufs n,?_⟩
  induction bufs generalizing n with
  | nil => exact .nil
  | cons buf bufs ih =>
    unfold parts
    split
    · exact .cons ⟨rfl,Nat.min_le_right _ _⟩ (ih _)
    · exact .nil

/-! The loops. -/

/-- The array of `count` structures at `iov`. -/
def buffers (mem : Memory) (iov : BitVec 64) : (count : Nat) → List Buffer
  | 0 => []
  | count + 1 => (mem.load64 iov,(mem.load64 (iov + 8)).toNat) :: buffers mem (iov + 16) count

/-- One pass of a loop over the array, with what has been done so far: `within` tests the counter,
for which `test` is loaded, `pointer` is loaded for `iov`, and `whole` tests for a buffer that
has been filled. -/
def iovPass (mem : Memory) (iovs : BitVec 64) (test pointer : List Effect) (whole : BitVec 64 → BitVec 64 → Bool)
    (within : BitVec w → Bool) (index : BitVec w → BitVec 64) :
    BitVec w × BitVec 64 × List Effect → Outcome (Pass (BitVec w × BitVec 64 × List Effect) (List Effect))
  | (i, tot, done) =>
    if within i ∧ tot > 0 then
      let iov := iovs + 16 * index i
      let iovLen := mem.load64 (iov + 8)
      let iovTot := if whole tot iovLen then iovLen else tot
      return .again (i + 1, tot - iovTot,
        done ++ test ++ pointer ++ [.read (iov + 8) 8, .read iov 8, .clear (mem.load64 iov) iovTot])
    else return .leave (done ++ test)

/-- `for (i = 0; i < (int)ctx->arg[SYSCALL_ARG2] && tot > 0; i++)` of `post_readv_hook`; `i` is an `int`. -/
def readvIovecs (mem : Memory) (ctx : SyscallCtx) (fuel : Nat) : Outcome (List Effect) :=
  loop (iovPass mem (ctx.arg 1) [] [] (fun tot iovLen => decide (tot ≥ iovLen))
    (fun i : BitVec 32 => decide (i.toInt < asInt (ctx.arg 2))) fun i => i.signExtend 64) fuel (0,ctx.ret,[])

/-- `for (i = 0; i < msg->msg_iovlen && tot > 0; i++)` of `post_recvmsg_hook` for the header `m`, and
the same loop over `j` of `post_recvmmsg_hook`; the counters are a `size_t`. -/
def msgIovecs (mem : Memory) (m tot : BitVec 64) (fuel : Nat) : Outcome (List Effect) :=
  loop (iovPass mem (mem.load64 (m + 16)) [.read (m + 24) 8] [.read (m + 16) 8] (fun tot iovLen => decide (tot > iovLen))
    (fun i : BitVec 64 => decide (i < mem.load64 (m + 24))) id) fuel (0,tot,[])

/-- What such a loop does from the structure at `iov` on, with `left` structures to go. -/
def iovWalk (mem : Memory) (test pointer : List Effect) (whole : BitVec 64 → BitVec 64 → Bool) (iov : BitVec 64) :
    (left : Nat) → (tot : BitVec 64) → List Effect
  | 0, _ => test
  | left + 1, tot =>
    test ++ if tot > 0 then
      let iovLen := mem.load64 (iov + 8)
      let iovTot := if whole tot iovLen then iovLen else tot
      pointer ++ [.read (iov + 8) 8, .read iov 8, .clear (mem.load64 iov) iovTot] ++
        iovWalk mem test pointer whole (iov + 16) left (tot - iovTot)
    else []

theorem readvLoop_eq (mem : Memory) (iov : BitVec 64) (left : Nat) (tot : BitVec 64) :
    readvLoop mem iov left tot = iovWalk mem [] [] (fun tot iovLen => decide (tot ≥ iovLen)) iov left tot := by
  induction left generalizing iov tot with
  | zero => rfl
  | succ left ih => simp [readvLoop,iovWalk,ih]

theorem msgIovLoop_eq (mem : Memory) (m iov : BitVec 64) (left : Nat) (tot : BitVec 64) :
    msgIovLoop mem m iov left tot =
      iovWalk mem [.read (m + 24) 8] [.read (m + 16) 8] (fun tot iovLen => decide (tot > iovLen)) iov left tot := by
  induction left generalizing iov tot with
  | zero => rfl
  | succ left ih => simp [msgIovLoop,iovWalk,ih]

section Loops
variable {w : Nat} {mem : Memory} {iovs : BitVec 64} {test pointer : List Effect} {whole : BitVec 64 → BitVec 64 → Bool}
  {within : BitVec w → Bool} {index : BitVec w → BitVec 64}

/-- A loop whose counter reaches the number of structures comes to its end. -/
theorem iovLoop_returns {count : Nat} (small : count < 2 ^ w) (bound : ∀ k ≤ count, within (BitVec.ofNat w k) ↔ k < count)
    (offset : ∀ k < count, index (BitVec.ofNat w k) = BitVec.ofNat 64 k) (tot : BitVec 64) :
    Returns (fun fuel => loop (iovPass mem iovs test pointer whole within index) fuel (0,tot,[]))
      (iovWalk mem test pointer whole iovs count tot) := by
  refine loop_returns (fun s => ∃ k ≤ count, s.1 = BitVec.ofNat w k ∧
    s.2.2 ++ iovWalk mem test pointer whole (iovs + 16 * BitVec.ofNat 64 k) (count - k) s.2.1 =
      iovWalk mem test pointer whole iovs count tot) (fun s => count - s.1.toNat) ?_
    ⟨0,Nat.zero_le _,rfl,by simp⟩
  rintro ⟨i,rest,done⟩ ⟨k,le,counter,result⟩
  obtain rfl : i = BitVec.ofNat w k := counter
  dsimp only at result
  have value : (BitVec.ofNat w k).toNat = k := by
    rw [BitVec.toNat_ofNat,Nat.mod_eq_of_lt (by omega)]
  by_cases more : k < count
  · obtain ⟨left,eq⟩ : ∃ left, count - k = left + 1 := ⟨count - k - 1,by omega⟩
    rw [eq,iovWalk] at result
    have goes : within (BitVec.ofNat w k) = true := (bound k le).mpr more
    by_cases some : rest > 0
    · have succ : BitVec.ofNat w k + 1 = BitVec.ofNat w (k + 1) := (BitVec.ofNat_add k 1).symm
      have next : iovs + 16 * BitVec.ofNat 64 k + 16 = iovs + 16 * BitVec.ofNat 64 (k + 1) := by
        rw [BitVec.ofNat_add,BitVec.mul_add,BitVec.add_assoc]
        rfl
      refine ⟨_,if_pos ⟨goes,some⟩,⟨k + 1,more,succ,?_⟩,?_⟩
      · rw [if_pos some,next] at result
        rw [← result,offset k more,show count - (k + 1) = left by omega]
        simp [List.append_assoc]
      · have value' : (BitVec.ofNat w (k + 1)).toNat = k + 1 := by
          rw [BitVec.toNat_ofNat,Nat.mod_eq_of_lt (by omega)]
        change count - (BitVec.ofNat w k + 1).toNat < count - (BitVec.ofNat w k).toNat
        rw [succ,value,value']
        omega
    · rw [if_neg some,List.append_nil] at result
      exact ⟨_,if_neg fun both => some both.2,result⟩
  · have stops : ¬ within (BitVec.ofNat w k) = true := fun goes => more ((bound k le).mp goes)
    rw [show count - k = 0 by omega,iovWalk] at result
    exact ⟨_,if_neg fun both => stops both.1,result⟩

end Loops

/-- What effects hand to `tagmap_clrn`. -/
def passed (effects : List Effect) : List Buffer :=
  effects.filterMap fun
    | .read _ _ => none
    | .clear addr n => some (addr,n.toNat)

theorem iovWalk_passed (mem : Memory) {test pointer : List Effect} {whole : BitVec 64 → BitVec 64 → Bool}
    (noTest : passed test = []) (noPointer : passed pointer = [])
    (chosen : ∀ tot len, (if whole tot len then len else tot).toNat = min tot.toNat len.toNat) (iov : BitVec 64)
    (left : Nat) (tot : BitVec 64) :
    passed (iovWalk mem test pointer whole iov left tot) = parts (buffers mem iov left) tot.toNat := by
  induction left generalizing iov tot with
  | zero => exact noTest
  | succ left ih =>
    unfold iovWalk buffers parts
    by_cases some : tot > 0
    · have positive : 0 < tot.toNat := BitVec.lt_def.mp some
      have part := chosen tot (mem.load64 (iov + 8))
      have rest : (tot - if whole tot (mem.load64 (iov + 8)) then mem.load64 (iov + 8) else tot).toNat =
          tot.toNat - min tot.toNat (mem.load64 (iov + 8)).toNat := by
        rw [BitVec.toNat_sub_of_le (by rw [BitVec.le_def,part]; exact Nat.min_le_left _ _),part]
      have walked := ih (iov + 16) (tot - if whole tot (mem.load64 (iov + 8)) then mem.load64 (iov + 8) else tot)
      rw [rest] at walked
      unfold passed at noTest noPointer walked ⊢
      simp only [if_pos some,if_pos positive,List.filterMap_append,List.filterMap_cons,List.filterMap_nil,noTest,noPointer,
        walked,part,List.nil_append,List.singleton_append]
    · have none : ¬ 0 < tot.toNat := fun positive => some (BitVec.lt_def.mpr positive)
      rw [if_neg some,if_neg none,List.append_nil]
      exact noTest

/-- The two ways to choose the part of a buffer come to the same. -/
theorem part_ge (tot len : BitVec 64) : (if decide (tot ≥ len) then len else tot).toNat = min tot.toNat len.toNat := by
  by_cases fits : tot ≥ len
  · have := BitVec.le_def.mp fits
    simp only [fits,decide_true,if_true]
    omega
  · have : ¬ len.toNat ≤ tot.toNat := fun le => fits (BitVec.le_def.mpr le)
    simp only [fits,decide_false,Bool.false_eq_true,if_false]
    omega

theorem part_gt (tot len : BitVec 64) : (if decide (tot > len) then len else tot).toNat = min tot.toNat len.toNat := by
  by_cases fits : tot > len
  · have := BitVec.lt_def.mp fits
    simp only [fits,decide_true,if_true]
    omega
  · have : ¬ len.toNat < tot.toNat := fun lt => fits (BitVec.lt_def.mpr lt)
    simp only [fits,decide_false,Bool.false_eq_true,if_false]
    omega

theorem readvIovecs_returns (mem : Memory) (ctx : SyscallCtx) :
    Returns (readvIovecs mem ctx) (readvLoop mem (ctx.arg 1) (asInt (ctx.arg 2)).toNat ctx.ret) := by
  rw [readvLoop_eq]
  have int : asInt (ctx.arg 2) < 2 ^ 31 := BitVec.toInt_lt
  refine iovLoop_returns (by omega) (fun k le => ?_) (fun k small => ?_) ctx.ret
  · have value : (BitVec.ofNat 32 k).toInt = k := by
      have low : (BitVec.ofNat 32 k).toNat = k := by rw [BitVec.toNat_ofNat,Nat.mod_eq_of_lt (by omega)]
      rw [BitVec.toInt_eq_toNat_of_lt (by omega),low]
    rw [decide_eq_true_eq,value]
    omega
  · have low : (BitVec.ofNat 32 k).msb = false := by
      rw [BitVec.msb_eq_false_iff_two_mul_lt,BitVec.toNat_ofNat]
      omega
    rw [BitVec.signExtend_eq_setWidth_of_msb_false low]
    apply BitVec.eq_of_toNat_eq
    simp only [BitVec.toNat_setWidth,BitVec.toNat_ofNat]
    omega

theorem msgIovecs_returns (mem : Memory) (m tot : BitVec 64) : Returns (msgIovecs mem m tot) (iovEffects mem m tot) := by
  rw [iovEffects,msgIovLoop_eq]
  refine iovLoop_returns (BitVec.isLt _) (fun k le => ?_) (fun _ _ => rfl) tot
  have small := (mem.load64 (m + 24)).isLt
  rw [decide_eq_true_eq,BitVec.lt_def,BitVec.toNat_ofNat]
  omega

theorem readvLoop_passed (mem : Memory) (iov : BitVec 64) (left : Nat) (tot : BitVec 64) :
    passed (readvLoop mem iov left tot) = parts (buffers mem iov left) tot.toNat := by
  rw [readvLoop_eq]
  exact iovWalk_passed mem rfl rfl part_ge iov left tot

theorem iovEffects_passed (mem : Memory) (m tot : BitVec 64) :
    passed (iovEffects mem m tot) = parts (buffers mem (mem.load64 (m + 16)) (mem.load64 (m + 24)).toNat) tot.toNat := by
  rw [iovEffects,msgIovLoop_eq]
  exact iovWalk_passed mem rfl rfl part_gt _ _ tot

/-! What becomes of the tags. -/

section Tags
variable {T : Type} [TagTraits T]

/-- Only what is handed to `tagmap_clrn` matters. -/
theorem applyEffects_passed (dir : TagDir T) (effects : List Effect) : applyEffects dir effects =
    (passed effects).foldl (fun dir call => tagmapClrn dir call.1.toNat call.2) dir := by
  induction effects generalizing dir with
  | nil => rfl
  | cons effect effects ih =>
    cases effect with
    | read addr size => exact ih dir
    | clear addr n => exact ih (tagmapClrn dir addr.toNat n.toNat)

theorem parts_part {bufs : List Buffer} {n : Nat} {call : Buffer} (member : call ∈ parts bufs n) :
    call.2 ≤ n ∧ ∃ buf ∈ bufs, call.1 = buf.1 ∧ call.2 ≤ buf.2 := by
  induction bufs generalizing n with
  | nil => cases member
  | cons buf bufs ih =>
    unfold parts at member
    split at member
    · rcases List.mem_cons.mp member with rfl | member
      · exact ⟨Nat.min_le_left _ _,buf,List.mem_cons_self,rfl,Nat.min_le_right _ _⟩
      · obtain ⟨le,buf',among,part⟩ := ih member
        exact ⟨Nat.le_trans le (Nat.sub_le _ _),buf',List.mem_cons_of_mem _ among,part⟩
    · cases member

/-- A buffer that ends inside the address space and is not of 4 GiB is cleared byte by byte. -/
theorem mem_bytes_iff {call : Buffer} {a : Nat} (small : call.2 < 2 ^ 32) (fits : call.1.toNat + call.2 ≤ 2 ^ 64)
    (user : a ≤ maxAddr) : BitVec.ofNat 64 a ∈ bytes call ↔ cleared call.1.toNat call.2 a := by
  unfold maxAddr at user
  have base := call.1.isLt
  simp only [bytes,List.mem_map,List.mem_range,cleared]
  constructor
  · rintro ⟨k,less,eq⟩
    have value := congrArg BitVec.toNat eq
    rw [BitVec.toNat_add,BitVec.toNat_ofNat,BitVec.toNat_ofNat] at value
    omega
  · intro inside
    refine ⟨a - call.1.toNat,by omega,BitVec.eq_of_toNat_eq ?_⟩
    rw [BitVec.toNat_add,BitVec.toNat_ofNat,BitVec.toNat_ofNat]
    omega

/-- The tags of the payload are cleared, and no others. -/
theorem getb_passed {bufs : List Buffer} {n a : Nat} (dir : TagDir T) {effects : List Effect}
    (calls : passed effects = parts bufs n) (small : n < 2 ^ 32)
    (fits : ∀ buf ∈ bufs, buf.1.toNat + buf.2 ≤ 2 ^ 64) (user : a ≤ maxAddr) :
    tagmapGetb (applyEffects dir effects) a =
      if BitVec.ofNat 64 a ∈ (bufs.flatMap bytes).take n then some clearedVal else tagmapGetb dir a := by
  rw [getb_applyEffects,← parts_bytes,← calls]
  refine if_congr ?_ rfl rfl
  rw [and_iff_left user,List.mem_flatMap]
  have each (call : Buffer) (member : call ∈ passed effects) :
      BitVec.ofNat 64 a ∈ bytes call ↔ cleared call.1.toNat call.2 a := by
    obtain ⟨le,buf,among,base,part⟩ := parts_part (calls ▸ member)
    have room := fits buf among
    exact mem_bytes_iff (by omega) (by rw [base]; omega) user
  constructor
  · rintro ⟨effect,member,clears⟩
    cases effect with
    | read addr size => exact absurd clears id
    | clear addr m =>
      have handed : (addr,m.toNat) ∈ passed effects := List.mem_filterMap.mpr ⟨_,member,rfl⟩
      exact ⟨_,handed,(each _ handed).mpr clears⟩
  · rintro ⟨call,member,inside⟩
    obtain ⟨effect,among,eq⟩ := List.mem_filterMap.mp member
    cases effect with
    | read addr size => cases eq
    | clear addr m =>
      cases eq
      exact ⟨_,among,(each _ member).mp inside⟩

end Tags

/-- What one loop over the array `bufs` has done for `n` bytes: it came to its end, it handed the
payload on, and it clears what any other loop does that hands on the same. -/
structure Scatters (run : Nat → Outcome (List Effect)) (effects : List Effect) (bufs : List Buffer) (n : Nat) : Prop where
  returns : Returns run effects
  delivers : Delivers bufs n (passed effects)
  clears : ∀ (T : Type) [TagTraits T] (dir : TagDir T), applyEffects dir effects =
    (parts bufs n).foldl (fun dir call => tagmapClrn dir call.1.toNat call.2) dir
  exactly : n < 2 ^ 32 → (∀ buf ∈ bufs, buf.1.toNat + buf.2 ≤ 2 ^ 64) →
    ∀ (T : Type) [TagTraits T] (dir : TagDir T), ∀ a ≤ maxAddr, tagmapGetb (applyEffects dir effects) a =
      if BitVec.ofNat 64 a ∈ (bufs.flatMap bytes).take n then some clearedVal else tagmapGetb dir a

theorem scatters_of_passed {run : Nat → Outcome (List Effect)} {effects : List Effect} {bufs : List Buffer} {n : Nat}
    (returns : Returns run effects) (calls : passed effects = parts bufs n) : Scatters run effects bufs n where
  returns := returns
  delivers := calls ▸ parts_delivers bufs n
  clears _ _ dir := by rw [applyEffects_passed,calls]
  exactly small fits _ _ dir _ user := getb_passed dir calls small fits user

/-- The header of message `i`. -/
def message (ctx : SyscallCtx) (i : Nat) : BitVec 64 := ctx.arg 1 + 64 * BitVec.ofNat 64 i

/-- The buffers of a message. -/
def msgBuffers (mem : Memory) (m : BitVec 64) : List Buffer :=
  buffers mem (mem.load64 (m + 16)) (mem.load64 (m + 24)).toNat

/-- Each of the three hooks hands exactly the payload to `tagmap_clrn`, and what is cleared depends on
the array and the count alone. -/
theorem scattered_input_cleared (abi : Abi) (ctx : SyscallCtx) (mem : Memory) :
    (0 < ctx.ret.toInt → Scatters (readvIovecs mem ctx) (postReadvHook ctx mem)
      (buffers mem (ctx.arg 1) (asInt (ctx.arg 2)).toNat) ctx.ret.toNat) ∧
    (0 < ctx.ret.toInt → ∃ effects, postRecvmsgHook abi ctx mem = headerEffects abi mem (ctx.arg 1) ++ effects ∧
      Scatters (msgIovecs mem (ctx.arg 1) ctx.ret) effects (msgBuffers mem (ctx.arg 1)) ctx.ret.toNat) ∧
    (0 ≤ ctx.ret.toInt → ∃ effects : Nat → List Effect, postRecvmmsgHook abi ctx mem =
        (List.range ctx.ret.toNat).flatMap (fun i => headerEffects abi mem (message ctx i) ++
          [.read (message ctx i + 56) 4,.clear (message ctx i + 56) (abi.bytes .unsigned)] ++ effects i) ++
        [.clear (ctx.arg 4) (abi.bytes .timespec)] ∧
      ∀ i, Scatters (msgIovecs mem (message ctx i) ((mem.load32 (message ctx i + 56)).setWidth 64)) (effects i)
        (msgBuffers mem (message ctx i)) (mem.load32 (message ctx i + 56)).toNat) := by
  refine ⟨fun positive => ?_,fun positive => ?_,fun success => ?_⟩
  · rw [postReadvHook,if_neg (Int.not_le.mpr positive)]
    exact scatters_of_passed (readvIovecs_returns mem ctx) (readvLoop_passed mem _ _ _)
  · refine ⟨_,if_neg (Int.not_le.mpr positive),?_⟩
    exact scatters_of_passed (msgIovecs_returns mem _ _) (iovEffects_passed mem _ _)
  · refine ⟨_,if_neg (Int.not_lt.mpr success),fun i => ?_⟩
    refine scatters_of_passed (msgIovecs_returns mem _ _) ((iovEffects_passed mem _ _).trans ?_)
    rw [BitVec.toNat_setWidth,Nat.mod_eq_of_lt (Nat.lt_trans (BitVec.isLt _) (by decide))]
    rfl

/-- Three structures at 0x1000: four bytes at 0x5000, none at 0x6000 and eight at 0x7000. -/
def gapMemory : Memory := fun a =>
  if a = 0x1001 then 0x50 else if a = 0x1008 then 4
  else if a = 0x1011 then 0x60
  else if a = 0x1021 then 0x70 else if a = 0x1028 then 8
  else 0

/-- `readv(3, (void *)0x1000, 3) = 6` -/
def gapCall : SyscallCtx := ⟨none,fun i => if i = 0 then 3 else if i = 1 then 0x1000 else 3,6⟩

theorem scattered_input_cleared_gap : (passed (postReadvHook gapCall gapMemory)).flatMap bytes =
    [0x5000,0x5001,0x5002,0x5003,0x7000,0x7001] := by
  have scatters := (scattered_input_cleared sampleAbi gapCall gapMemory).1 (by decide)
  exact scatters.delivers.payload.trans (by decide)

end Libdft.ScatteredInput
