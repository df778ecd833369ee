import Libdft.TrackerRelations
import Mathlib.Data.Finset.Lattice.Union

/-! Where tags come from. A run of instrumented instructions, of reads that give labels to bytes
and of calls that clear them is followed with sets of origins for tags: the places at the start
and the offsets that were labelled. What the run does to the tags of any other back end is then
the union of the tags of the origins, and the origins do not depend on tags. -/
namespace Libdft.Core

open TagMap TagTraits TagOps

/-- What the tool does with tags, one call at a time: the calls inserted for an instruction,
`tagmap_setb` with the tag of an offset, and `tagmap_clrn`. -/
inductive Event where
  | executed (ins : Ins) (exec : Exec)
  | labelled (addr : BitVec 64) (offset : BitVec 32)
  | cleared (addr : BitVec 64) (n : Nat)

inductive Origin where
  | place (p : Place)
  | offset (o : BitVec 32)
  deriving DecidableEq

section Track
variable {T : Type} [TagOps T]

def Event.run : Event → Analysis T Unit
  | executed ins exec => analyse ins exec
  | labelled addr offset => assign (.mem addr) (tagAlloc offset)
  | cleared addr n => clearMemory addr n

def track (events : List Event) : Analysis T Unit := events.forM Event.run

theorem track_append (events later : List Event) :
    (track (events ++ later) : Analysis T Unit) = (do track events; track later) :=
  List.forM_append

end Track

/-- Runs keep whatever relation between two back ends their operations keep. -/
theorem track_coupled {T U : Type} [TagOps T] [TagOps U] {R : T → U → Prop} [TagRelation R]
    (allocs : ∀ o, R (tagAlloc o) (tagAlloc o)) (events : List Event) : Lockstep (Tagwise R) (track events) (track events) := by
  refine .forM fun event _ => ?_
  cases event with
  | executed ins exec => exact analyse_coupled R ins exec
  | labelled addr offset => exact assign_coupled _ (allocs offset)
  | cleared addr n => exact clearMemory_coupled addr n

/-! A back end that follows origins. -/

instance : TagOps (Finset Origin) where
  clearedVal := ∅
  tagIsEmpty := fun tag => tag.card == 0
  empty_iff := by simp
  tagAlloc o := {.offset o}
  tagCombine := (· ∪ ·)

/-- The address whose tag is at an index of the directory. -/
def addrOf (i : Fin topDirSz) (j : Fin pagetableSz) (k : Fin pageSize) : BitVec 64 :=
  BitVec.ofNat 64 (i.val * 2 ^ 24 + j.val * 2 ^ 12 + k.val)

/-- Every place has itself for its only origin. -/
def origins : TagState (Finset Origin) where
  gpr row byte := {.place (.reg row byte)}
  tagDir i := some fun j => some fun k => {.place (.mem (addrOf i j k))}

/-- The tag at a place; nothing where there is none. -/
def TagState.tagAt {T : Type} [TagTraits T] (s : TagState T) (p : Place) : T :=
  if p.Inside then (s.look p).getD clearedVal else clearedVal

/-- The origins of every tag after a run. -/
def flow (events : List Event) : Except Fault (Place → Finset Origin) :=
  (track events origins).map fun ran => ran.2.tagAt

/-- Through an earlier run, whose origins are given. -/
def Origin.follow (before : Place → Finset Origin) : Origin → Finset Origin
  | place p => before p
  | offset o => {.offset o}

theorem addrOf_own {addr : Nat} (user : addr ≤ maxAddr) :
    addrOf (tableOf addr user) (pageOf addr) (offsetOf addr) = BitVec.ofNat 64 addr := by
  have digits : virt2Pagetable addr * 2 ^ 24 + virt2Page addr * 2 ^ 12 + virt2Offset addr = addr := by
    rw [virt2Pagetable_eq,virt2Page_eq,virt2Offset_eq]
    omega
  exact congrArg (BitVec.ofNat 64) digits

theorem look_origins_mem {addr : BitVec 64} (user : addr.toNat ≤ maxAddr) :
    origins.look (.mem addr) = some {.place (.mem addr)} := by
  have stored : tagmapGetb origins.tagDir addr.toNat = some {.place (.mem (addrOf (tableOf _ user) (pageOf _) (offsetOf _)))} :=
    dif_neg (Nat.not_lt.mpr user)
  rw [addrOf_own user,BitVec.ofNat_toNat,BitVec.setWidth_eq] at stored
  exact stored

/-! The tags of origins, united. -/

section Unite
variable {T : Type} [TagOps T]

/-- What unions of tags are taken to be. -/
class UnionTags (T : Type) [TagOps T] : Prop where
  comm : Std.Commutative (tagCombine : T → T → T)
  assoc : Std.Associative (tagCombine : T → T → T)
  idem : Std.IdempotentOp (tagCombine : T → T → T)
  cleared (tag : T) : tagCombine clearedVal tag = tag

attribute [instance] UnionTags.comm UnionTags.assoc UnionTags.idem

instance : UnionTags UInt8 := ⟨⟨UInt8.or_comm⟩,⟨UInt8.or_assoc⟩,⟨fun _ => UInt8.or_self⟩,fun _ => UInt8.zero_or⟩

theorem unionTags_finset {α : Type} [DecidableEq α] [TagOps (Finset α)] (cup : ∀ s t : Finset α, tagCombine s t = s ∪ t)
    (empty : (clearedVal : Finset α) = ∅) : UnionTags (Finset α) where
  comm := ⟨fun s t => by rw [cup,cup,Finset.union_comm]⟩
  assoc := ⟨fun s t u => by simp only [cup,Finset.union_assoc]⟩
  idem := ⟨fun s => by rw [cup,Finset.union_self]⟩
  cleared s := by rw [cup,empty,Finset.empty_union]

instance : UnionTags (Finset (BitVec 32)) := unionTags_finset (fun _ _ => rfl) rfl
instance : UnionTags (Finset Origin) := unionTags_finset (fun _ _ => rfl) rfl

def TagState.tagOf (s : TagState T) : Origin → T
  | .place p => s.tagAt p
  | .offset o => tagAlloc o

variable [UnionTags T]

/-- The union of the tags of origins. -/
def unite (s : TagState T) (from_ : Finset Origin) : T := from_.fold tagCombine clearedVal s.tagOf

theorem unite_union (s : TagState T) (F G : Finset Origin) : unite s (F ∪ G) = tagCombine (unite s F) (unite s G) := by
  induction F using Finset.induction_on with
  | empty => rw [Finset.empty_union,unite,unite,Finset.fold_empty,UnionTags.cleared]
  | insert o F _ ih =>
    unfold unite at ih ⊢
    rw [Finset.insert_union,Finset.fold_insert_idem,Finset.fold_insert_idem,ih]
    exact (UnionTags.assoc.assoc _ _ _).symm

@[simp] theorem unite_singleton (s : TagState T) (o : Origin) : unite s {o} = s.tagOf o := by
  rw [unite,Finset.fold_singleton,UnionTags.comm.comm,UnionTags.cleared]

/-- The tag of a byte is the union of the tags of origins. -/
def Stands (s : TagState T) (tag : T) (F : Finset Origin) : Prop := tag = unite s F

instance (s : TagState T) : TagRelation (Stands s) where
  cleared := rfl
  combine first second := by
    rw [Stands,first,second]
    exact (unite_union s _ _).symm

end Unite

section Tags
variable {T U : Type} [TagOps T] [TagOps U] {R : T → U → Prop} {s : TagState T} {t : TagState U}

theorem Tagwise.tagAt [TagRelation R] (tags : Tagwise R s t) (p : Place) : R (s.tagAt p) (t.tagAt p) := by
  unfold TagState.tagAt
  split
  next inside =>
    have places := tags p inside
    cases left : s.look p <;> cases right : t.look p <;> simp_all [TagRelation.cleared]
  next => exact TagRelation.cleared

/-- Which addresses have tags does not depend on the state. -/
theorem tagwise_of_tagAt (tags : ∀ p, p.Inside → R (s.tagAt p) (t.tagAt p)) : Tagwise R s t := by
  intro p inside
  have related := tags p inside
  unfold TagState.tagAt at related
  rw [if_pos inside,if_pos inside] at related
  cases p with
  | reg row byte => exact .some related
  | mem addr =>
    by_cases user : addr.toNat ≤ maxAddr
    · have left : s.look (.mem addr) = _ := getb_user s.tagDir user
      have right : t.look (.mem addr) = _ := getb_user t.tagDir user
      rw [left,right] at related ⊢
      exact .some related
    · have left : s.look (.mem addr) = none := getb_beyond s.tagDir (Nat.lt_of_not_le user)
      have right : t.look (.mem addr) = none := getb_beyond t.tagDir (Nat.lt_of_not_le user)
      rw [left,right]
      exact .none

end Tags

theorem stands_origins {T : Type} [TagOps T] [UnionTags T] (s : TagState T) : Tagwise (Stands s) s origins := by
  apply tagwise_of_tagAt
  intro p inside
  by_cases user : ∀ addr, p = .mem addr → addr.toNat ≤ maxAddr
  · have own : origins.tagAt p = {.place p} := by
      rw [TagState.tagAt,if_pos inside]
      cases p with
      | reg row byte => rfl
      | mem addr => rw [look_origins_mem (user addr rfl)]; rfl
    rw [own,Stands,unite_singleton]
    rfl
  · obtain ⟨addr,rfl,beyond⟩ : ∃ addr, p = .mem addr ∧ maxAddr < addr.toNat := by simpa using user
    have none_ {V : Type} [TagTraits V] (v : TagState V) : v.tagAt (.mem addr) = clearedVal := by
      have read : v.look (.mem addr) = none := getb_beyond v.tagDir beyond
      rw [TagState.tagAt,if_pos inside,read]
      rfl
    rw [none_ s,none_ origins]
    rfl

section Runs
variable {T : Type} [TagOps T] [UnionTags T] {events : List Event}

theorem track_cases (events : List Event) (s : TagState T) :
    (∃ fault, flow events = .error fault ∧ track events s = .error fault) ∨
      ∃ F s', flow events = .ok F ∧ track events s = .ok ((),s') ∧ ∀ p, s'.tagAt p = unite s (F p) := by
  have allocs (o : BitVec 32) : Stands s (tagAlloc o) (tagAlloc o) := (unite_singleton s (.offset o)).symm
  rcases track_coupled allocs events s origins (stands_origins s) with
    ⟨fault,left,right⟩ | ⟨_,_,s',t',left,right,_,tags⟩
  · exact .inl ⟨fault,congrArg (Except.map _) right,left⟩
  · exact .inr ⟨t'.tagAt,s',congrArg (Except.map _) right,left,tags.tagAt⟩

theorem flow_error (stuck : flow events = .error fault) (s : TagState T) : track events s = .error fault := by
  rcases track_cases events s with ⟨fault',same,run⟩ | ⟨F,_,same,_⟩
  · rw [stuck] at same
    rw [run,Except.error.inj same]
  · simp [stuck] at same

theorem flow_ok {F : Place → Finset Origin} (ended : flow events = .ok F) (s : TagState T) :
    ∃ s', track events s = .ok ((),s') ∧ ∀ p, s'.tagAt p = unite s (F p) := by
  rcases track_cases events s with ⟨fault,same,_⟩ | ⟨F',s',same,run,tags⟩
  · simp [ended] at same
  · rw [ended] at same
    obtain rfl := Except.ok.inj same
    exact ⟨s',run,tags⟩

/-- The tag of every byte after a run is the union of the tags that its origins had before it,
and of the labels among them. Origins and faults are those of the run, whatever tags there are. -/
theorem track_flow (events : List Event) (s : TagState T) :
    match flow events with
    | .error fault => track events s = .error fault
    | .ok F => ∃ s', track events s = .ok ((),s') ∧ ∀ p, s'.tagAt p = unite s (F p) := by
  cases result : flow events with
  | error fault => exact flow_error result s
  | ok F => exact flow_ok result s

end Runs

/-- `add cl, byte ptr [mem]` -/
def addClMem : Ins := ⟨.add,[.reg (.lower8 .rcx),.mem 1],fun _ => false,.invalid,.invalid,false,.invalid⟩

/-- A byte is labelled and added to a register that is marked already. -/
def addLabelled : List Event := [.labelled 4096 7,.executed addClMem (.plain 4096)]

theorem track_flow_add : ∃ s', track addLabelled (⟨fun _ _ => 2,empty⟩ : TagState UInt8) = .ok ((),s') ∧
    s'.tagAt (.reg dftRegRcx 0) = 3 ∧ s'.tagAt (.reg dftRegRcx 1) = 2 := by
  have followed := track_flow addLabelled (⟨fun _ _ => 2,empty⟩ : TagState UInt8)
  cases result : flow addLabelled with
  | error fault =>
    have ends : (flow addLabelled).toOption.isSome := by decide
    simp [result,Except.toOption] at ends
  | ok F =>
    rw [result] at followed
    obtain ⟨s',run,tags⟩ := followed
    have low : (flow addLabelled).toOption.map (· (.reg dftRegRcx 0)) = some {.place (.reg dftRegRcx 0),.offset 7} := by decide
    have high : (flow addLabelled).toOption.map (· (.reg dftRegRcx 1)) = some {.place (.reg dftRegRcx 1)} := by decide
    simp only [result,Except.toOption,Option.map_some,Option.some.injEq] at low high
    refine ⟨s',run,?_,?_⟩
    · rw [tags,low]
      decide
    · rw [tags,high]
      decide

theorem unite_origins (s : TagState (Finset Origin)) (G : Finset Origin) : unite s G = G.biUnion (Origin.follow s.tagAt) := by
  have values : s.tagOf = Origin.follow s.tagAt := by
    funext o
    cases o <;> rfl
  rw [← Finset.sup_eq_biUnion,← values]
  rfl

/-- Runs one after the other compose their origins. -/
theorem flow_append (events later : List Event) :
    flow (events ++ later) = (do
      let F ← flow events
      let G ← flow later
      return fun p => (G p).biUnion (Origin.follow F)) := by
  cases before : track events origins with
  | error fault =>
    have stuck : flow events = .error fault := congrArg (Except.map _) before
    rw [stuck,flow,track_append,bind_error before]
    rfl
  | ok ran =>
    obtain ⟨⟨⟩,s⟩ := ran
    have ended : flow events = .ok s.tagAt := congrArg (Except.map _) before
    rw [ended,flow,track_append,bind_ok before]
    cases after : flow later with
    | error fault =>
      rw [flow_error after s]
      rfl
    | ok G =>
      obtain ⟨s',run,tags⟩ := flow_ok after s
      have composed : s'.tagAt = fun p => (G p).biUnion (Origin.follow s.tagAt) := by
        funext p
        rw [tags,unite_origins]
      rw [run]
      exact congrArg Except.ok composed

/-! Two back ends on one run. -/

/-- A byte that says whether there is a label other than that of the first offset. -/
def Marks (mark : UInt8) (labels : Finset (BitVec 32)) : Prop := mark ≠ 0 ↔ ∃ o ∈ labels, o ≠ 0

instance : TagRelation Marks where
  cleared := by
    show (0 : UInt8) ≠ 0 ↔ ∃ o ∈ (∅ : Finset (BitVec 32)), o ≠ 0
    simp
  combine {a b a' b'} first second := by
    show a ||| a' ≠ 0 ↔ ∃ o ∈ b ∪ b', o ≠ 0
    have left : a ≠ 0 ↔ ∃ o ∈ b, o ≠ 0 := first
    have right : a' ≠ 0 ↔ ∃ o ∈ b', o ≠ 0 := second
    rw [ne_eq,UInt8.or_eq_zero_iff,not_and_or,← ne_eq,← ne_eq,left,right]
    simp only [Finset.mem_union,or_and_right,exists_or]

theorem marks_alloc (o : BitVec 32) : Marks (tagAlloc o) (tagAlloc o) := by
  show (if 0 < o then (1 : UInt8) else 0) ≠ 0 ↔ ∃ o' ∈ ({o} : Finset (BitVec 32)), o' ≠ 0
  simp

/-- From states that agree on it, the byte build taints what has a label other than 0 in the set
build, after every run of both; and where one run fails the other fails. -/
theorem uint8_follows_set (events : List Event) (s : TagState UInt8) (t : TagState (Finset (BitVec 32)))
    (start : ∀ p, p.Inside → (s.tagAt p ≠ 0 ↔ ∃ o ∈ t.tagAt p, o ≠ 0)) :
    (∃ fault, track events s = .error fault ∧ track events t = .error fault) ∨
      ∃ s' t', track events s = .ok ((),s') ∧ track events t = .ok ((),t') ∧
        ∀ p, s'.tagAt p ≠ 0 ↔ ∃ o ∈ t'.tagAt p, o ≠ 0 := by
  rcases track_coupled marks_alloc events s t (tagwise_of_tagAt start) with failed | ⟨_,_,s',t',left,right,_,after⟩
  · exact .inl failed
  · exact .inr ⟨s',t',left,right,after.tagAt⟩

/-- The registers have one tag, and memory none. -/
def registersAll {T : Type} [TagTraits T] (tag : T) : TagState T := ⟨fun _ _ => tag,empty⟩

theorem registersAll_tagAt {T : Type} [TagTraits T] (tag : T) {p : Place} (inside : p.Inside) :
    (registersAll tag).tagAt p = match p with
      | .reg _ _ => tag
      | .mem _ => clearedVal := by
  rw [TagState.tagAt,if_pos inside]
  cases p with
  | reg row byte => rfl
  | mem addr =>
    have read : (registersAll tag).look (.mem addr) = some clearedVal ∨ (registersAll tag).look (.mem addr) = none := by
      by_cases user : addr.toNat ≤ maxAddr
      · exact .inl (getb_empty user)
      · exact .inr (getb_beyond _ (Nat.lt_of_not_le user))
    rcases read with read | read <;> rw [read] <;> rfl

/-- The run labels a byte and adds it to a marked register: both are tainted in both builds. -/
theorem uint8_follows_set_tainted : ∃ s' t', track addLabelled (registersAll (1 : UInt8)) = .ok ((),s') ∧
    track addLabelled (registersAll ({5} : Finset (BitVec 32))) = .ok ((),t') ∧
      (∃ o ∈ t'.tagAt (.mem 4096), o ≠ 0) ∧ s'.tagAt (.reg dftRegRcx 0) ≠ 0 ∧ ∃ o ∈ t'.tagAt (.reg dftRegRcx 0), o ≠ 0 := by
  have memory : (track addLabelled (registersAll (1 : UInt8))).toOption.map (fun ran => ran.2.tagAt (.mem 4096)) = some 1 := by decide
  have register : (track addLabelled (registersAll (1 : UInt8))).toOption.map (fun ran => ran.2.tagAt (.reg dftRegRcx 0)) = some 1 := by
    decide
  have start : ∀ p : Place, p.Inside →
      ((registersAll (1 : UInt8)).tagAt p ≠ 0 ↔ ∃ o ∈ (registersAll ({5} : Finset (BitVec 32))).tagAt p, o ≠ 0) := by
    intro p inside
    rw [registersAll_tagAt _ inside,registersAll_tagAt _ inside]
    cases p with
    | reg row byte => simp
    | mem addr => exact TagRelation.cleared (R := Marks)
  rcases uint8_follows_set addLabelled _ _ start with ⟨fault,failed,_⟩ | ⟨s',t',left,right,same⟩
  · rw [failed] at memory
    cases memory
  · rw [left] at memory register
    have one : (1 : UInt8) ≠ 0 := by decide
    have byte : s'.tagAt (.mem 4096) = 1 := Option.some.inj memory
    have low : s'.tagAt (.reg dftRegRcx 0) = 1 := Option.some.inj register
    exact ⟨s',t',left,right,(same _).mp (byte ▸ one),low ▸ one,(same _).mp (low ▸ one)⟩

end Libdft.Core
