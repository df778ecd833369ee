import Libdft.MyTool
import Libdft.Descriptors

/-! Labels of the tool against the kernel's file positions. Every call that copies or maps bytes
of a file places them at addresses of the application in some order; what a place holds
afterwards is the last byte that went there. -/
namespace Libdft.SourceLabels

open Syscall TagMap MyTool
open SyscallHook (Env stdinFileno taintBytes taintRange taintBytes_returns getb_taintRange distance)
open Descriptors (Names Result asInt_result)

/-- An open file; nothing is known of one that was inherited. -/
structure OpenFile where
  opened : Option (List Char)
  pos : Nat

def OpenFile.Tracked (f : OpenFile) : Prop := ∃ path, f.opened = some path ∧ fuzzingInputFile <:+: path

abbrev Files := Nat → Option OpenFile

/-- Addresses, and the bytes of the file that go there. -/
abbrev Placed := List (BitVec 64 × Nat)

/-- The byte that an address holds in the end. -/
def landing : Placed → BitVec 64 → Option Nat
  | [], _ => none
  | (a,p) :: rest, b => (landing rest b).or (if a = b then some p else none)

/-- `n` bytes of the file from `pos` on, in one buffer. -/
def contiguous (buf : BitVec 64) (pos n : Nat) : Placed :=
  (List.range n).map fun i => (buf + BitVec.ofNat 64 i,pos + i)

/-- `n` bytes of the file from `pos` on, in the buffers of `left` structures `iovec`. -/
def scatter (mem : Memory) (iov : BitVec 64) : (left : Nat) → (pos n : Nat) → Placed
  | 0, _, _ => []
  | left + 1, pos, n =>
    let len := min (mem.load64 (iov + 8)).toNat n
    contiguous (mem.load64 iov) pos len ++ scatter mem (iov + 16) left (pos + len) (n - len)

/-- `MAX_RW_COUNT` and `UIO_MAXIOV` of the kernel. -/
def maxRwCount : Nat := 0x7ffff000
def uioMaxiov : Nat := 1024

/-- A mapping is of whole pages. -/
def pageRound (len : Nat) : Nat := (len + 4095) / 4096 * 4096

/-- A call with the application's memory before and after it. -/
structure Call where
  call : ToolCall
  ctx : SyscallCtx
  before : Memory
  after : Memory
  cstring : BitVec 64 → List Char

def Call.path (c : Call) : List Char := c.cstring (if c.call = .openat then c.ctx.arg 1 else c.ctx.arg 0)

/-- The bytes that a transfer of `n` bytes on a descriptor at `pos` places. -/
def Call.placed (c : Call) (pos n : Nat) : Placed :=
  match c.call with
  | .read => contiguous (c.ctx.arg 1) pos n
  | .pread64 => contiguous (c.ctx.arg 1) (c.ctx.arg 3).toNat n
  | .readv => scatter c.before (c.ctx.arg 1) (c.ctx.arg 2).toNat pos n
  | .mmap => contiguous c.ctx.ret (c.ctx.arg 5).toNat (pageRound (c.ctx.arg 1).toNat)
  | _ => []

def advance (files : Files) (fd : Nat) (f : OpenFile) (pos : Nat) : Files := Function.update files fd (some { f with pos })

/-- What a successful call does: to the table of open files, on a descriptor, and where it places bytes. -/
inductive Effect (files : Files) (c : Call) : Files → Nat → Placed → Prop where
  | opened : c.call ∈ [.open,.openat] → Result c.ctx.ret fd → files fd = none →
      Effect files c (Function.update files fd (some ⟨some c.path,0⟩)) fd []
  | close : c.call = .close → Names (c.ctx.arg 0) fd → files fd = some f → c.ctx.ret = 0 →
      Effect files c (Function.update files fd none) fd []
  | lseek : c.call = .lseek → Names (c.ctx.arg 0) fd → files fd = some f → c.ctx.ret = BitVec.ofNat 64 pos → pos < 2 ^ 63 →
      Effect files c (advance files fd f pos) fd []
  | stream : c.call ∈ [.read,.readv] → Names (c.ctx.arg 0) fd → files fd = some f → c.ctx.ret.toNat ≤ maxRwCount →
      (c.call = .readv → (c.ctx.arg 2).toNat ≤ uioMaxiov) →
      (∀ a p, (a,p) ∈ c.placed f.pos c.ctx.ret.toNat → a.toNat ≤ maxAddr) →
      (∀ a, landing (c.placed f.pos c.ctx.ret.toNat) a = none → c.after a = c.before a) →
      Effect files c (advance files fd f (f.pos + c.ctx.ret.toNat)) fd (c.placed f.pos c.ctx.ret.toNat)
  | positioned : c.call ∈ [.pread64,.mmap] → Names (c.ctx.arg (if c.call = .mmap then 4 else 0)) fd → files fd = some f →
      (c.call = .pread64 → c.ctx.ret.toNat ≤ maxRwCount) → (c.call = .mmap → c.ctx.ret ≠ mapFailed ∧ 0 < (c.ctx.arg 1).toNat) →
      (∀ a p, (a,p) ∈ c.placed f.pos c.ctx.ret.toNat → a.toNat ≤ maxAddr) →
      Effect files c files fd (c.placed f.pos c.ctx.ret.toNat)

/-- `lseek(fd, 0, SEEK_CUR)` -/
def position (files : Files) (fd : Int) : BitVec 64 :=
  match files fd.toNat with
  | some f => BitVec.ofNat 64 f.pos
  | none => -1

section Runs
variable {T : Type} [TagTraits T] (tagAlloc : BitVec 32 → T)

structure State (T : Type) where
  files : Files
  tool : Tool T

/-- The calls of a history succeed, so that their paths can be read. -/
def Call.env (c : Call) (files : Files) : Env T := ⟨tagAlloc,position files,fun addr => some (c.cstring addr)⟩

/-- The post hook of a call, once the kernel has set the positions. -/
def Call.hook (c : Call) (files : Files) (tool : Tool T) (fuel : Nat) : Outcome (Tool T) :=
  c.call.post (c.env tagAlloc files) c.after fuel c.ctx tool

/-- The kernel acts, then the post hook runs. -/
inductive Step (s : State T) (c : Call) : State T → Prop where
  | mk : Effect s.files c files fd placed → Returns (c.hook tagAlloc files s.tool) tool → Step s c ⟨files,tool⟩

/-- Files may be inherited, but none is tracked. -/
def State.Initial (s : State T) : Prop :=
  s.tool.fdset = ∅ ∧ ∀ fd f, s.files fd = some f → f.opened = none

/-- The set holds the descriptors of the tracked files. -/
def State.Follows (s : State T) : Prop :=
  ∀ fd : Nat, (fd : Int) ∈ s.tool.fdset ↔ ∃ f, s.files fd = some f ∧ f.Tracked

/-- Every address holds a byte of the file has the tag of its offset. -/
def Labelled (placed : Placed) (dir : TagDir T) : Prop :=
  ∀ a p, p < 2 ^ 24 → landing placed a = some p → tagmapGetb dir a.toNat = some (tagAlloc (BitVec.ofNat 32 p))

/-- The offsets are all past those that have labels. -/
def Beyond (placed : Placed) : Prop := ∀ a p, (a,p) ∈ placed → 2 ^ 24 ≤ p

/-- A scattered read or a mapping of a tracked file starts where the file does. The read leaves its
`iovec` structures alone, and the mapping is shorter than what a 32-bit counter goes over. -/
def Based (s : State T) (c : Call) : Prop :=
  ∀ fd f, s.files fd = some f → f.Tracked →
    (c.call = .readv → Names (c.ctx.arg 0) fd → Beyond (c.placed f.pos c.ctx.ret.toNat) ∨
      f.pos = 0 ∧ ∀ k < 16 * (c.ctx.arg 2).toNat,
        landing (c.placed f.pos c.ctx.ret.toNat) (c.ctx.arg 1 + BitVec.ofNat 64 k) = none) ∧
    (c.call = .mmap → Names (c.ctx.arg 4) fd →
      (c.ctx.arg 5 = 0 ∨ Beyond (c.placed f.pos c.ctx.ret.toNat)) ∧ (c.ctx.arg 1).toNat < 2 ^ 32 - 4096)

end Runs

/-! Where bytes land. -/

theorem landing_mem {placed : Placed} (lands : landing placed a = some p) : (a,p) ∈ placed := by
  induction placed with
  | nil => cases lands
  | cons first rest ih =>
    obtain ⟨b,q⟩ := first
    rw [landing] at lands
    rcases Option.or_eq_some_iff.mp lands with later | ⟨_,here⟩
    · exact List.mem_cons_of_mem _ (ih later)
    · split at here
      next same =>
        obtain rfl : q = p := Option.some.inj here
        exact same ▸ List.mem_cons_self
      next => cases here

theorem mem_contiguous : (a,p) ∈ contiguous buf pos n ↔ ∃ i < n, a = buf + BitVec.ofNat 64 i ∧ p = pos + i := by
  simp only [contiguous,List.mem_map,List.mem_range,Prod.mk.injEq]
  exact exists_congr fun i => and_congr_right fun _ => and_congr eq_comm eq_comm

/-! Tags for bytes, as the hooks set them. -/

section Paint
variable {T : Type} [TagTraits T] (tagAlloc : BitVec 32 → T)

/-- A tag for each byte, in the order of the bytes. -/
def paint (dir : TagDir T) (placed : Placed) : TagDir T :=
  placed.foldl (fun dir x => tagmapSetb dir x.1.toNat (tagAlloc (BitVec.ofNat 32 x.2))) dir

theorem paint_append (dir : TagDir T) (placed placed' : Placed) :
    paint tagAlloc dir (placed ++ placed') = paint tagAlloc (paint tagAlloc dir placed) placed' := List.foldl_append

theorem getb_paint (placed : Placed) (dir : TagDir T) (a : BitVec 64) (user : a.toNat ≤ maxAddr) :
    tagmapGetb (paint tagAlloc dir placed) a.toNat =
      ((landing placed a).map fun p => tagAlloc (BitVec.ofNat 32 p)).or (tagmapGetb dir a.toNat) := by
  induction placed generalizing dir with
  | nil => simp [paint,landing]
  | cons first rest ih =>
    obtain ⟨b,q⟩ := first
    change tagmapGetb (paint tagAlloc (tagmapSetb dir b.toNat _) rest) a.toNat = _
    rw [ih,tagmapSetb_puts,landing]
    by_cases same : b = a
    · subst same
      cases landing rest b <;> simp [user]
    · have apart : a.toNat ≠ b.toNat := fun eq => same (BitVec.eq_of_toNat_eq eq).symm
      simp [same,apart]

theorem labelled_paint {placed : Placed} (dir : TagDir T) (user : ∀ a p, (a,p) ∈ placed → a.toNat ≤ maxAddr) :
    Labelled tagAlloc placed (paint tagAlloc dir placed) := by
  intro a p _ lands
  rw [getb_paint tagAlloc placed dir a (user a p (landing_mem lands)),lands]
  rfl

/-- The loops with a 32-bit counter label a buffer of the file, and may go on after it. -/
theorem labelled_taintRange (env : Env T) (alloc : env.tagAlloc = tagAlloc) {m n : Nat} (covers : n ≤ m) (small : m ≤ 2 ^ 32)
    (buf : BitVec 64) (pos : Nat) (dir : TagDir T) (user : ∀ a p, (a,p) ∈ contiguous buf pos n → a.toNat ≤ maxAddr) :
    Labelled tagAlloc (contiguous buf pos n) (taintRange env (BitVec.ofNat 32 pos) buf dir m) := by
  intro a p _ lands
  have member := landing_mem lands
  obtain ⟨i,below,rfl,rfl⟩ := mem_contiguous.mp member
  have far : distance buf (buf + BitVec.ofNat 64 i).toNat = BitVec.ofNat 64 i := by
    rw [distance,BitVec.ofNat_toNat,BitVec.setWidth_eq,BitVec.add_comm,BitVec.add_sub_cancel]
  have value : (BitVec.ofNat 64 i).toNat = i := by
    rw [BitVec.toNat_ofNat]
    exact Nat.mod_eq_of_lt (by omega)
  have low : (BitVec.ofNat 64 i).setWidth 32 = BitVec.ofNat 32 i := by
    apply BitVec.eq_of_toNat_eq
    rw [BitVec.toNat_setWidth,value,BitVec.toNat_ofNat]
  rw [getb_taintRange env _ buf dir small,far,value,if_pos ⟨Nat.lt_of_lt_of_le below covers,user _ _ member⟩,alloc,low,
    BitVec.ofNat_add]

theorem contiguous_succ (buf : BitVec 64) (pos n : Nat) :
    contiguous buf pos (n + 1) = contiguous buf pos n ++ [(buf + BitVec.ofNat 64 n,pos + n)] := by
  simp [contiguous,List.range_succ]

theorem taintIovec_paint (env : Env T) (alloc : env.tagAlloc = tagAlloc) (base : BitVec 64) (q n : Nat) (dir : TagDir T) :
    taintIovec env base n (BitVec.ofNat 32 q) dir = (BitVec.ofNat 32 (q + n),paint tagAlloc dir (contiguous base q n)) := by
  induction n with
  | zero => rfl
  | succ n ih =>
    have last : taintIovec env base (n + 1) (BitVec.ofNat 32 q) dir =
        ((taintIovec env base n (BitVec.ofNat 32 q) dir).1 + 1,
          tagmapSetb (taintIovec env base n (BitVec.ofNat 32 q) dir).2 (base + BitVec.ofNat 64 n).toNat
            (env.tagAlloc (taintIovec env base n (BitVec.ofNat 32 q) dir).1)) := by
      rw [taintIovec,List.range_succ,List.foldl_append]
      rfl
    rw [last,ih,contiguous_succ,paint_append,alloc,← Nat.add_assoc,BitVec.ofNat_add (q + n)]
    rfl

theorem scatter_zero (mem : Memory) (iov : BitVec 64) (left pos : Nat) : scatter mem iov left pos 0 = [] := by
  induction left generalizing iov pos with
  | zero => rfl
  | succ left ih => simp [scatter,contiguous,ih]

/-- The hook of `readv` labels the bytes of the file as if it had been read from its start. -/
theorem readvLoop_paint (env : Env T) (alloc : env.tagAlloc = tagAlloc) (mem : Memory) (iov : BitVec 64) (left : Nat)
    (bytesReaded : BitVec 64) (q : Nat) (dir : TagDir T) :
    readvLoop env mem true iov left bytesReaded (BitVec.ofNat 32 q) dir =
      paint tagAlloc dir (scatter mem iov left q bytesReaded.toNat) := by
  induction left generalizing iov bytesReaded q dir with
  | zero => rfl
  | succ left ih =>
    unfold readvLoop
    split
    next more =>
      have len : (if bytesReaded ≥ mem.load64 (iov + 8) then mem.load64 (iov + 8) else bytesReaded).toNat =
          min (mem.load64 (iov + 8)).toNat bytesReaded.toNat := by
        split
        next fits => exact (Nat.min_eq_left (BitVec.le_def.mp fits)).symm
        next short => exact (Nat.min_eq_right (Nat.le_of_not_le fun fits => short (BitVec.le_def.mpr fits))).symm
      have rest : (bytesReaded - if bytesReaded ≥ mem.load64 (iov + 8) then mem.load64 (iov + 8) else bytesReaded).toNat =
          bytesReaded.toNat - min (mem.load64 (iov + 8)).toNat bytesReaded.toNat := by
        rw [BitVec.toNat_sub_of_le (by rw [BitVec.le_def,len]; exact Nat.min_le_right _ _),len]
      simp only [if_true,taintIovec_paint tagAlloc env alloc,ih,rest,len]
      rw [scatter,paint_append]
    next none =>
      have zero : bytesReaded.toNat = 0 := by
        by_contra some
        exact none (BitVec.lt_def.mpr (Nat.pos_of_ne_zero some))
      rw [zero,scatter_zero]
      rfl

end Paint

/-! Structures that the call leaves alone. -/

theorem load_congr {mem mem' : Memory} (size : Nat) (addr : BitVec 64)
    (same : ∀ k < size, mem (addr + BitVec.ofNat 64 k) = mem' (addr + BitVec.ofNat 64 k)) :
    mem.load addr size = mem'.load addr size := by
  induction size generalizing addr with
  | zero => rfl
  | succ size ih =>
    have first : mem addr = mem' addr := by simpa using same 0 (Nat.succ_pos size)
    have rest : mem.load (addr + 1) size = mem'.load (addr + 1) size := ih (addr + 1) fun k small => by
      have next := same (k + 1) (Nat.succ_lt_succ small)
      rwa [Nat.add_comm,BitVec.ofNat_add,← BitVec.add_assoc] at next
    rw [Memory.load,Memory.load,first,rest]

theorem scatter_congr {mem mem' : Memory} (left : Nat) (iov : BitVec 64)
    (same : ∀ k < 16 * left, mem (iov + BitVec.ofNat 64 k) = mem' (iov + BitVec.ofNat 64 k)) (pos n : Nat) :
    scatter mem iov left pos n = scatter mem' iov left pos n := by
  induction left generalizing iov pos n with
  | zero => rfl
  | succ left ih =>
    have base : mem.load64 iov = mem'.load64 iov :=
      congrArg (BitVec.ofNat 64) (load_congr 8 iov fun k small => same k (by omega))
    have len : mem.load64 (iov + 8) = mem'.load64 (iov + 8) := by
      refine congrArg (BitVec.ofNat 64) (load_congr 8 (iov + 8) fun k small => ?_)
      have next := same (8 + k) (by omega)
      rwa [BitVec.ofNat_add,← BitVec.add_assoc] at next
    have rest (k : Nat) (small : k < 16 * left) :
        mem (iov + 16 + BitVec.ofNat 64 k) = mem' (iov + 16 + BitVec.ofNat 64 k) := by
      have next := same (16 + k) (by omega)
      rwa [BitVec.ofNat_add,← BitVec.add_assoc] at next
    rw [scatter,scatter,base,len,ih (iov + 16) rest]

/-! Steps. -/

section Follows
variable {T : Type} {s : State T}

theorem initial_follows (initial : s.Initial) : s.Follows := by
  intro fd
  rw [initial.1]
  refine iff_of_false (Finset.notMem_empty _) ?_
  rintro ⟨f,here,path,opened,_⟩
  rw [initial.2 fd f here] at opened
  cases opened

/-- An open file of the table is tracked as before, wherever its position is. -/
theorem follows_advance {tool : Tool T} {f : OpenFile} (follows : s.Follows) (here : s.files fd = some f)
    (same : tool.fdset = s.tool.fdset) (pos : Nat) : State.Follows ⟨advance s.files fd f pos,tool⟩ := by
  intro other
  change (other : Int) ∈ tool.fdset ↔ ∃ g, advance s.files fd f pos other = some g ∧ g.Tracked
  rw [same,follows other]
  by_cases own : other = fd
  · subst own
    simp [advance,here,OpenFile.Tracked]
  · rw [advance,Function.update_of_ne own]

/-- One entry of the table changes, and the set changes with it. -/
theorem follows_update {fd : Nat} {tool : Tool T} {entry : Option OpenFile} (follows : s.Follows)
    (others : ∀ other : Nat, other ≠ fd → ((other : Int) ∈ tool.fdset ↔ (other : Int) ∈ s.tool.fdset))
    (here : (fd : Int) ∈ tool.fdset ↔ ∃ f, entry = some f ∧ f.Tracked) :
    State.Follows ⟨Function.update s.files fd entry,tool⟩ := by
  intro other
  by_cases same : other = fd
  · subst same
    simpa using here
  · change (other : Int) ∈ tool.fdset ↔ ∃ f, Function.update s.files fd entry other = some f ∧ _
    rw [Function.update_of_ne same,others other same]
    exact follows other

end Follows

section Steps
variable {T : Type} [TagTraits T] {tagAlloc : BitVec 32 → T} {s next : State T} {c : Call}

theorem returned_of_bind {x : Outcome α} {f : α → β} {b : β} (eq : (x >>= fun a => pure (f a)) = .returned b) :
    ∃ a, b = f a := by
  cases x with
  | returned a => exact ⟨a,(Outcome.returned.inj eq).symm⟩
  | trapped | running => cases eq

/-- Calls that move or copy bytes do not change which files are tracked. -/
theorem hook_fdset {tool : Tool T} (transfers : c.call ∈ [.read,.pread64,.readv,.mmap,.lseek])
    (returns : Returns (c.hook tagAlloc files s.tool) tool) : tool.fdset = s.tool.fdset := by
  obtain ⟨fuel,stop⟩ := returns
  have eq := stop fuel (Nat.le_refl fuel)
  unfold Call.hook at eq
  cases call : c.call <;> simp [call] at transfers <;> rw [call] at eq
  case read | pread64 | mmap =>
    simp only [ToolCall.post,postReadHook,postPread64Hook,postMmapHook] at eq
    split at eq
    · obtain rfl := Outcome.returned.inj eq
      rfl
    · split at eq
      · obtain ⟨dir,rfl⟩ := returned_of_bind eq
        rfl
      · obtain rfl := Outcome.returned.inj eq
        rfl
  case readv =>
    obtain rfl : postReadvHook _ _ _ _ = tool := Outcome.returned.inj eq
    unfold postReadvHook
    split <;> rfl
  case lseek =>
    obtain rfl := Outcome.returned.inj eq
    rfl

/-- The hooks of `open` and `openat` on a descriptor that was not in use. -/
theorem hook_opened (opens : c.call ∈ [.open,.openat]) (result : Result c.ctx.ret fd) (files : Files) (fuel : Nat) :
    c.hook tagAlloc files s.tool fuel =
      .returned (if strstr c.path fuzzingInputFile then { s.tool with fdset := insert (fd : Int) s.tool.fdset } else s.tool) := by
  have value := asInt_result result
  unfold Call.hook
  cases call : c.call <;> simp [call] at opens
  · simp [ToolCall.post,postOpenHook,SyscallHook.fileName,value,Call.path,call,Call.env]
  · simp [ToolCall.post,postOpenatHook,SyscallHook.fileName,value,Call.path,call,Call.env]

theorem step_follows (follows : s.Follows) (step : Step tagAlloc s c next) : next.Follows := by
  obtain @⟨files,fd,placed,tool,effect,returns⟩ := step
  cases effect with
  | opened opens result fresh =>
    rw [returns.eq_of fun fuel => hook_opened opens result _ fuel]
    refine follows_update follows (fun other apart => ?_) ?_
    · split
      · exact Finset.mem_insert.trans (or_iff_right fun same => apart (Int.ofNat.inj same))
      · rfl
    · split
      next tracked => exact iff_of_true (Finset.mem_insert_self _ _) ⟨_,rfl,_,rfl,strstr_iff.mp tracked⟩
      next untracked =>
        refine iff_of_false (fun member => ?_) ?_
        · obtain ⟨f,here,_⟩ := (follows _).mp member
          rw [fresh] at here
          cases here
        · rintro ⟨f,same,path,opened,tracked⟩
          obtain rfl := Option.some.inj same
          obtain rfl : c.path = path := Option.some.inj opened
          exact untracked (strstr_iff.mpr tracked)
  | close call names here success =>
    have closed : asInt (c.ctx.arg 0) = fd := names
    have hook (fuel : Nat) : c.hook tagAlloc (Function.update s.files fd none) s.tool fuel = .returned { s.tool with fdset := s.tool.fdset.erase fd } := by
      simp [Call.hook,call,ToolCall.post,postCloseHook,success,closed]
    rw [returns.eq_of hook]
    refine follows_update follows (fun other apart => ?_) (by simp)
    exact Finset.mem_erase.trans (and_iff_right fun same => apart (Int.ofNat.inj same))
  | lseek call names here _ _ => exact follows_advance follows here (hook_fdset (by simp [call]) returns) _
  | stream calls names here _ _ _ _ =>
    have transfers : c.call ∈ [.read,.pread64,.readv,.mmap,.lseek] := by
      cases call : c.call <;> simp_all
    exact follows_advance follows here (hook_fdset transfers returns) _
  | positioned calls names here _ _ _ =>
    have transfers : c.call ∈ [.read,.pread64,.readv,.mmap,.lseek] := by
      cases call : c.call <;> simp_all
    intro fd
    rw [hook_fdset transfers returns]
    exact follows fd

end Steps

/-! The hooks on a tracked file. -/

section Tracked
variable {T : Type} [TagTraits T] {tagAlloc : BitVec 32 → T} {s : State T} {c : Call} {files : Files} {fd : Nat} {f : OpenFile}

theorem labelled_nil (dir : TagDir T) : Labelled tagAlloc [] dir := fun _ _ _ => nofun

theorem count_int {ret : BitVec 64} (bounded : ret.toNat ≤ maxRwCount) : ret.toInt = ret.toNat := by
  unfold maxRwCount at bounded
  rw [BitVec.toInt_eq_toNat_cond,if_pos (by omega)]

/-- What `read_off -= nr` computes. -/
theorem readOff_eq {ret : BitVec 64} (pos : Nat) :
    asUnsigned (BitVec.ofNat 64 (pos + ret.toNat)) - asUnsigned ret = BitVec.ofNat 32 pos := by
  unfold asUnsigned
  apply BitVec.eq_of_toNat_eq
  rw [BitVec.toNat_sub,BitVec.toNat_setWidth,BitVec.toNat_setWidth,BitVec.toNat_ofNat,BitVec.toNat_ofNat]
  omega

/-- A hook whose loop goes over a buffer of the file. -/
theorem transfer_labelled (tagAlloc : BitVec 32 → T) {readOff : BitVec 32} {buf count : BitVec 64} {n pos : Nat} (covers : n ≤ count.toNat)
    (small : count.toNat < 2 ^ 32) (base : readOff = BitVec.ofNat 32 pos)
    (user : ∀ a p, (a,p) ∈ contiguous buf pos n → a.toNat ≤ maxAddr) {hook : Nat → Outcome (Tool T)} {stdinReadOff : BitVec 32}
    (loops : ∀ fuel, hook fuel = taintBytes (c.env tagAlloc files) fuel readOff buf count s.tool.tagDir >>=
      fun tagDir => pure ⟨tagDir,s.tool.fdset,stdinReadOff⟩) :
    ∃ tool, Returns hook tool ∧ Labelled tagAlloc (contiguous buf pos n) tool.tagDir := by
  subst base
  obtain rfl : hook = _ := funext loops
  exact ⟨_,(taintBytes_returns (c.env tagAlloc files) (BitVec.ofNat 32 pos) buf s.tool.tagDir small).map fun tagDir =>
    (⟨tagDir,s.tool.fdset,stdinReadOff⟩ : Tool T),
    labelled_taintRange tagAlloc (c.env tagAlloc files) rfl covers (Nat.le_of_lt small) buf pos s.tool.tagDir user⟩

theorem read_labelled (call : c.call = .read) (member : (fd : Int) ∈ s.tool.fdset) (names : Names (c.ctx.arg 0) fd)
    (nonStdin : fd ≠ 0) (bounded : c.ctx.ret.toNat ≤ maxRwCount)
    (after : position files fd = BitVec.ofNat 64 (pos + c.ctx.ret.toNat))
    (user : ∀ a p, (a,p) ∈ contiguous (c.ctx.arg 1) pos c.ctx.ret.toNat → a.toNat ≤ maxAddr) :
    ∃ tool, Returns (c.hook tagAlloc files s.tool) tool ∧
      Labelled tagAlloc (contiguous (c.ctx.arg 1) pos c.ctx.ret.toNat) tool.tagDir := by
  have descriptor : asInt (c.ctx.arg 0) = fd := names
  have apart : (fd : Int) ≠ stdinFileno := fun same => nonStdin (Int.ofNat.inj same)
  by_cases empty : c.ctx.ret.toInt ≤ 0
  · have zero : c.ctx.ret.toNat = 0 := by
      rw [count_int bounded] at empty
      omega
    rw [zero]
    refine ⟨s.tool,⟨0,fun fuel _ => ?_⟩,labelled_nil _⟩
    simp [Call.hook,call,ToolCall.post,postReadHook,empty]
  · have loops (fuel : Nat) : c.hook tagAlloc files s.tool fuel =
        taintBytes (c.env tagAlloc files) fuel (asUnsigned (BitVec.ofNat 64 (pos + c.ctx.ret.toNat)) - asUnsigned c.ctx.ret)
          (c.ctx.arg 1) c.ctx.ret s.tool.tagDir >>= fun tagDir => pure ⟨tagDir,s.tool.fdset,s.tool.stdinReadOff⟩ := by
      simp [Call.hook,call,ToolCall.post,postReadHook,empty,descriptor,member,apart,Call.env,after]
    exact transfer_labelled tagAlloc (Nat.le_refl _) (Nat.lt_of_le_of_lt bounded (by decide)) (readOff_eq pos) user loops

theorem pread64_labelled (call : c.call = .pread64) (member : (fd : Int) ∈ s.tool.fdset) (names : Names (c.ctx.arg 0) fd)
    (bounded : c.ctx.ret.toNat ≤ maxRwCount)
    (user : ∀ a p, (a,p) ∈ contiguous (c.ctx.arg 1) (c.ctx.arg 3).toNat c.ctx.ret.toNat → a.toNat ≤ maxAddr) :
    ∃ tool, Returns (c.hook tagAlloc files s.tool) tool ∧
      Labelled tagAlloc (contiguous (c.ctx.arg 1) (c.ctx.arg 3).toNat c.ctx.ret.toNat) tool.tagDir := by
  have descriptor : asInt (c.ctx.arg 0) = fd := names
  by_cases empty : c.ctx.ret.toInt ≤ 0
  · have zero : c.ctx.ret.toNat = 0 := by
      rw [count_int bounded] at empty
      omega
    rw [zero]
    refine ⟨s.tool,⟨0,fun fuel _ => ?_⟩,labelled_nil _⟩
    simp [Call.hook,call,ToolCall.post,postPread64Hook,empty]
  · have base : asUnsigned (c.ctx.arg 3) = BitVec.ofNat 32 (c.ctx.arg 3).toNat := (BitVec.ofNat_toNat 32 _).symm
    have loops (fuel : Nat) : c.hook tagAlloc files s.tool fuel =
        taintBytes (c.env tagAlloc files) fuel (asUnsigned (c.ctx.arg 3)) (c.ctx.arg 1) c.ctx.ret s.tool.tagDir >>=
          fun tagDir => pure ⟨tagDir,s.tool.fdset,s.tool.stdinReadOff⟩ := by
      simp [Call.hook,call,ToolCall.post,postPread64Hook,empty,descriptor,member]
    exact transfer_labelled tagAlloc (Nat.le_refl _) (Nat.lt_of_le_of_lt bounded (by decide)) base user loops

/-- The rounded length of a mapping has all its pages, and a 32-bit counter goes over it. -/
theorem mmap_offset {len : BitVec 64} (short : len.toNat < 2 ^ 32 - 4096) :
    pageRound len.toNat ≤ (mmapOffset len).toNat ∧ (mmapOffset len).toNat < 2 ^ 32 := by
  have page : SyscallTable.pageSz.toNat = 4096 := rfl
  unfold pageRound mmapOffset
  split
  next small =>
    rw [BitVec.lt_def,page] at small
    rw [page]
    omega
  next large =>
    rw [BitVec.lt_def,page] at large
    rw [BitVec.toNat_sub,BitVec.toNat_add,BitVec.toNat_umod,page]
    omega

/-- Offsets past all labels are not asked for. -/
theorem Beyond.labelled {placed : Placed} (beyond : Beyond placed) (dir : TagDir T) : Labelled tagAlloc placed dir :=
  fun a p small lands => absurd small (Nat.not_lt.mpr (beyond a p (landing_mem lands)))

theorem mmap_labelled (call : c.call = .mmap) (member : (fd : Int) ∈ s.tool.fdset) (names : Names (c.ctx.arg 4) fd)
    (success : c.ctx.ret ≠ mapFailed) (start : c.ctx.arg 5 = 0 ∨ Beyond (contiguous c.ctx.ret (c.ctx.arg 5).toNat (pageRound (c.ctx.arg 1).toNat)))
    (short : (c.ctx.arg 1).toNat < 2 ^ 32 - 4096)
    (user : ∀ a p, (a,p) ∈ contiguous c.ctx.ret (c.ctx.arg 5).toNat (pageRound (c.ctx.arg 1).toNat) → a.toNat ≤ maxAddr) :
    ∃ tool, Returns (c.hook tagAlloc files s.tool) tool ∧
      Labelled tagAlloc (contiguous c.ctx.ret (c.ctx.arg 5).toNat (pageRound (c.ctx.arg 1).toNat)) tool.tagDir := by
  have descriptor : asInt (c.ctx.arg 4) = fd := names
  have loops (fuel : Nat) : c.hook tagAlloc files s.tool fuel =
      taintBytes (c.env tagAlloc files) fuel 0 c.ctx.ret (mmapOffset (c.ctx.arg 1)) s.tool.tagDir >>=
        fun tagDir => pure ⟨tagDir,s.tool.fdset,s.tool.stdinReadOff⟩ := by
    simp [Call.hook,call,ToolCall.post,postMmapHook,success,descriptor,member]
  obtain ⟨covers,small⟩ := mmap_offset short
  rcases start with zero | beyond
  · have base : (0 : BitVec 32) = BitVec.ofNat 32 (c.ctx.arg 5).toNat := by
      rw [zero]
      rfl
    exact transfer_labelled tagAlloc covers small base user loops
  · have base (file : BitVec 32) : file = BitVec.ofNat 32 file.toNat := by simp
    obtain ⟨tool,returns,_⟩ := transfer_labelled tagAlloc (n := 0) (Nat.zero_le _) small (base 0) nofun loops
    exact ⟨tool,returns,beyond.labelled _⟩

theorem asInt_small {x : BitVec 64} (bounded : x.toNat ≤ uioMaxiov) : (asInt x).toNat = x.toNat := by
  unfold uioMaxiov at bounded
  unfold asInt
  rw [BitVec.toInt_eq_toNat_cond,BitVec.toNat_setWidth]
  split <;> omega

theorem readv_labelled (call : c.call = .readv) (member : (fd : Int) ∈ s.tool.fdset) (names : Names (c.ctx.arg 0) fd)
    (bounded : c.ctx.ret.toNat ≤ maxRwCount) (count : (c.ctx.arg 2).toNat ≤ uioMaxiov)
    (start : Beyond (scatter c.before (c.ctx.arg 1) (c.ctx.arg 2).toNat pos c.ctx.ret.toNat) ∨ pos = 0 ∧
      ∀ k < 16 * (c.ctx.arg 2).toNat, c.after (c.ctx.arg 1 + BitVec.ofNat 64 k) = c.before (c.ctx.arg 1 + BitVec.ofNat 64 k))
    (user : ∀ a p, (a,p) ∈ scatter c.before (c.ctx.arg 1) (c.ctx.arg 2).toNat pos c.ctx.ret.toNat → a.toNat ≤ maxAddr) :
    ∃ tool, Returns (c.hook tagAlloc files s.tool) tool ∧
      Labelled tagAlloc (scatter c.before (c.ctx.arg 1) (c.ctx.arg 2).toNat pos c.ctx.ret.toNat) tool.tagDir := by
  have descriptor : asInt (c.ctx.arg 0) = fd := names
  refine ⟨postReadvHook (c.env tagAlloc files) c.after c.ctx s.tool,⟨0,fun fuel _ => ?_⟩,?_⟩
  · simp [Call.hook,call,ToolCall.post]
  rcases start with beyond | ⟨rfl,intact⟩
  · exact beyond.labelled _
  · unfold postReadvHook
    split
    next empty =>
      have zero : c.ctx.ret.toNat = 0 := by
        rw [count_int bounded] at empty
        omega
      rw [zero,scatter_zero]
      exact labelled_nil _
    next =>
      have painted := readvLoop_paint tagAlloc (c.env tagAlloc files) rfl c.after (c.ctx.arg 1) (c.ctx.arg 2).toNat c.ctx.ret 0
        s.tool.tagDir
      rw [scatter_congr _ _ intact] at painted
      simp only [descriptor,member,decide_true,asInt_small count]
      exact painted ▸ labelled_paint tagAlloc _ user

/-- One call on a tracked file. -/
theorem call_labelled {placed : Placed} (follows : s.Follows) (effect : Effect s.files c files fd placed)
    (here : s.files fd = some f) (tracked : f.Tracked) (nonStdin : fd ≠ 0) (based : Based s c) :
    ∃ tool, Returns (c.hook tagAlloc files s.tool) tool ∧ Labelled tagAlloc placed tool.tagDir := by
  have member : (fd : Int) ∈ s.tool.fdset := (follows fd).mpr ⟨f,here,tracked⟩
  obtain ⟨readv,mmap⟩ := based fd f here tracked
  cases effect with
  | opened _ _ fresh =>
    rw [fresh] at here
    cases here
  | close call names =>
    refine ⟨postCloseHook c.ctx s.tool,⟨0,fun fuel _ => ?_⟩,labelled_nil _⟩
    simp [Call.hook,call,ToolCall.post]
  | lseek call =>
    refine ⟨s.tool,⟨0,fun fuel _ => ?_⟩,labelled_nil _⟩
    simp [Call.hook,call,ToolCall.post]
  | stream calls names here' bounded count user frame =>
    obtain rfl := Option.some.inj (here.symm.trans here')
    cases call : c.call <;> simp [call] at calls
    · have after : position (advance s.files fd f (f.pos + c.ctx.ret.toNat)) fd = BitVec.ofNat 64 (f.pos + c.ctx.ret.toNat) := by
        simp [position,advance]
      simp only [Call.placed,call] at user ⊢
      exact read_labelled call member names nonStdin bounded after user
    · have start : Beyond (c.placed f.pos c.ctx.ret.toNat) ∨ f.pos = 0 ∧ ∀ k < 16 * (c.ctx.arg 2).toNat,
          c.after (c.ctx.arg 1 + BitVec.ofNat 64 k) = c.before (c.ctx.arg 1 + BitVec.ofNat 64 k) :=
        (readv call names).imp_right fun start => ⟨start.1,fun k small => frame _ (start.2 k small)⟩
      simp only [Call.placed,call] at user start ⊢
      exact readv_labelled call member names bounded (count call) start user
  | positioned calls names here' bounded success user =>
    obtain rfl := Option.some.inj (here.symm.trans here')
    cases call : c.call <;> simp [call] at calls
    · simp only [Call.placed,call] at user ⊢
      have names : Names (c.ctx.arg 0) fd := by simpa [call] using names
      exact pread64_labelled call member names (bounded call) user
    · have names : Names (c.ctx.arg 4) fd := by simpa [call] using names
      obtain ⟨start,short⟩ := mmap call names
      simp only [Call.placed,call] at user start ⊢
      exact mmap_labelled call member names (success call).1 start short user

/-- In every history, a call on a tracked file whose base is right labels each byte that it
places by the byte's offset in the file. -/
theorem labels_of_based {start : State T} {calls : List Call} {placed : Placed} (initial : start.Initial)
    (run : Run (Step tagAlloc) start calls s) (effect : Effect s.files c files fd placed)
    (here : s.files fd = some f) (tracked : f.Tracked) (nonStdin : fd ≠ 0) (based : Based s c) :
    ∃ tool, Returns (c.hook tagAlloc files s.tool) tool ∧ Labelled tagAlloc placed tool.tagDir :=
  call_labelled (run.invariant State.Follows (fun _ _ _ follows step => step_follows follows step)
    (initial_follows initial)) effect here tracked nonStdin based

end Tracked

/-! The input file, opened as descriptor 3 and read from offset 5 on. -/

def inputCstring : BitVec 64 → List Char := fun _ => "input".toList

/-- One `iovec` at 0x2000, for the byte at 0x1000. -/
def iovecMemory : Memory := fun a => if a = 0x2001 then 0x10 else if a = 0x2008 then 1 else 0

def inputCall (call : ToolCall) (arg0 arg1 arg2 ret : BitVec 64) : Call :=
  ⟨call,⟨none,fun i => if i = 0 then arg0 else if i = 1 then arg1 else arg2,ret⟩,iovecMemory,iovecMemory,inputCstring⟩

def inputStart : State (Finset (BitVec 32)) := ⟨fun _ => none,⟨TagMap.empty,∅,0⟩⟩

def inputSeeked : State (Finset (BitVec 32)) :=
  ⟨Function.update (fun _ => none) 3 (some ⟨some "input".toList,5⟩),⟨TagMap.empty,{3},0⟩⟩

theorem names_three : Names 3 3 := by
  unfold Names
  decide

theorem inputStart_initial : inputStart.Initial := ⟨rfl,fun _ _ => nofun⟩

theorem input_tracked : OpenFile.Tracked ⟨some "input".toList,5⟩ := ⟨_,rfl,List.infix_rfl⟩

theorem inputSeeked_run : Run (Step fun offset => ({offset} : Finset (BitVec 32))) inputStart
    [inputCall .open 0 0 0 3,inputCall .lseek 3 5 0 5] inputSeeked := by
  have opened : Step (fun offset => ({offset} : Finset (BitVec 32))) inputStart (inputCall .open 0 0 0 3)
      ⟨Function.update (fun _ => none) 3 (some ⟨some "input".toList,0⟩),⟨TagMap.empty,{3},0⟩⟩ :=
    .mk (.opened (by decide) ⟨by decide,by decide⟩ rfl) ⟨0,fun fuel _ => rfl⟩
  have seeked : Effect (Function.update (fun _ => none) 3 (some ⟨some "input".toList,0⟩)) (inputCall .lseek 3 5 0 5)
      inputSeeked.files 3 [] := by
    have effect : Effect (Function.update (fun _ => none) 3 (some ⟨some "input".toList,0⟩)) (inputCall .lseek 3 5 0 5)
        (advance _ 3 ⟨some "input".toList,0⟩ 5) 3 [] := .lseek rfl names_three rfl rfl (by decide)
    simpa [advance,inputSeeked] using effect
  exact .cons opened (.cons (.mk seeked ⟨0,fun fuel _ => rfl⟩) .nil)

/-- The byte at offset 5, read to 0x1000, has the tag of offset 5. -/
theorem labels_of_based_seeked :
    ∃ tool, Returns (Call.hook (fun offset => ({offset} : Finset (BitVec 32))) (inputCall .read 3 0x1000 1 1)
        (advance inputSeeked.files 3 ⟨some "input".toList,5⟩ 6) inputSeeked.tool) tool ∧
      Labelled (fun offset => ({offset} : Finset (BitVec 32))) (contiguous 0x1000 5 1) tool.tagDir := by
  have effect : Effect inputSeeked.files (inputCall .read 3 0x1000 1 1)
      (advance inputSeeked.files 3 ⟨some "input".toList,5⟩ 6) 3 (contiguous 0x1000 5 1) := by
    refine .stream (f := ⟨some "input".toList,5⟩) (by decide) names_three rfl (by decide) nofun (fun a p member => ?_) fun _ _ => rfl
    obtain ⟨rfl,rfl⟩ : a = 0x1000 ∧ p = 5 := by simpa [Call.placed,inputCall,contiguous] using member
    decide
  exact labels_of_based inputStart_initial inputSeeked_run effect rfl input_tracked (by decide)
    fun _ _ _ _ => ⟨nofun,nofun⟩

/-- The byte at offset 5, read by `readv`, has the tag of offset 0. -/
theorem readv_restarts :
    ¬ ∀ (start s : State (Finset (BitVec 32))) (calls : List Call) (c : Call) (files : Files) (fd : Nat) (f : OpenFile)
      (placed : Placed), start.Initial → Run (Step fun offset => {offset}) start calls s → Effect s.files c files fd placed →
      s.files fd = some f → f.Tracked → fd ≠ 0 →
      ∃ tool, Returns (c.hook (fun offset => {offset}) files s.tool) tool ∧
        Labelled (fun offset => {offset}) placed tool.tagDir := by
  intro claim
  have bytes : scatter iovecMemory 0x2000 1 5 1 = [(0x1000,5)] := by decide
  have effect : Effect inputSeeked.files (inputCall .readv 3 0x2000 1 1)
      (advance inputSeeked.files 3 ⟨some "input".toList,5⟩ 6) 3 (scatter iovecMemory 0x2000 1 5 1) := by
    refine .stream (f := ⟨some "input".toList,5⟩) (by decide) names_three rfl (by decide) (fun _ => by decide) (fun a p member => ?_)
      fun _ _ => rfl
    change (a,p) ∈ scatter iovecMemory 0x2000 1 5 1 at member
    rw [bytes] at member
    obtain ⟨rfl,rfl⟩ : a = 0x1000 ∧ p = 5 := by simpa using member
    decide
  obtain ⟨tool,returns,labelled⟩ := claim _ _ _ _ _ 3 _ _ inputStart_initial inputSeeked_run effect rfl input_tracked (by decide)
  rw [returns.eq_of fun _ => rfl,bytes] at labelled
  have asked := labelled 0x1000 5 (by decide) rfl
  have restarted : scatter iovecMemory 0x2000 1 0 1 = [(0x1000,0)] := by decide
  have painted := readvLoop_paint (fun offset => ({offset} : Finset (BitVec 32)))
    ((inputCall .readv 3 0x2000 1 1).env _ (advance inputSeeked.files 3 ⟨some "input".toList,5⟩ 6)) rfl iovecMemory 0x2000 1 1 0
    inputSeeked.tool.tagDir
  have given := getb_paint (fun offset => ({offset} : Finset (BitVec 32))) (scatter iovecMemory 0x2000 1 0 1)
    inputSeeked.tool.tagDir 0x1000 (by decide)
  have same := (congrArg (tagmapGetb · (0x1000 : BitVec 64).toNat) painted).trans given
  rw [restarted] at same
  have tags : (some {5} : Option (Finset (BitVec 32))) = some {0} := asked.symm.trans same
  exact absurd (Option.some.inj tags) (by decide)

end Libdft.SourceLabels
