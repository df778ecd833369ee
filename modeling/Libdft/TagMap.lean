import Libdft.Sparse
import Libdft.SsaPool
import Mathlib.Data.Finset.Card
import Mathlib.Data.Nat.Bitwise

/-! The shadow memory: a directory of tables of pages of tags, allocated on demand, and
the total map from user addresses to tags that it stands for. Allocation is taken to
succeed; addresses are 64-bit and sums of them are written with their wrap-around. -/
namespace Libdft

/-- `tag_traits<tag_t>` and `tag_is_empty`, for one choice of `tag_t` but `TAG_EWAH`: there a bitmap that
was padded with zeros is empty, and is not `cleared_val`. -/
class TagTraits (T : Type) where
  clearedVal : T
  tagIsEmpty : T → Bool
  empty_iff : tagIsEmpty t = true ↔ t = clearedVal

/-- `TAG_UINT8` -/
instance : TagTraits UInt8 := ⟨0, (· == 0), beq_iff_eq⟩

/-- `TAG_SET` -/
instance : TagTraits (Finset (BitVec 32)) := ⟨∅, (·.card == 0), by simp⟩

/-- `TAG_BDD`: labels. -/
instance : TagTraits Nat := ⟨0, (· == 0), beq_iff_eq⟩

/-- `TAG_SSA`: references to cells. -/
instance : TagTraits (Option Ssa.Cell) := ⟨none, (· == none), beq_iff_eq⟩

namespace TagMap

open TagTraits

/-- The last address that has a tag. -/
def maxAddr : Nat := 0x7fffffffffff

def pageSize : Nat := 4096
def pageBits : Nat := 12
def topDirSz : Nat := 0x800000
def pagetableSz : Nat := 0x1000
def pagetableBits : Nat := 24
def offsetMask : Nat := 0x00000FFF
def pagetableOffsetMask : Nat := 0x00FFFFFF

def virt2Pagetable (addr : Nat) : Nat := addr >>> pagetableBits
def virt2Page (addr : Nat) : Nat := (addr &&& pagetableOffsetMask) >>> pageBits
def virt2Offset (addr : Nat) : Nat := addr &&& offsetMask

theorem virt2Pagetable_eq (addr : Nat) : virt2Pagetable addr = addr / 2 ^ 24 :=
  Nat.shiftRight_eq_div_pow addr 24

theorem virt2Page_eq (addr : Nat) : virt2Page addr = addr % 2 ^ 24 / 2 ^ 12 := by
  rw [virt2Page,Nat.shiftRight_eq_div_pow]
  exact congrArg (· / 2 ^ 12) (Nat.and_two_pow_sub_one_eq_mod addr 24)

theorem virt2Offset_eq (addr : Nat) : virt2Offset addr = addr % 2 ^ 12 :=
  Nat.and_two_pow_sub_one_eq_mod addr 12

theorem virt2Pagetable_lt {addr : Nat} (user : addr ≤ maxAddr) : virt2Pagetable addr < topDirSz := by
  rw [virt2Pagetable_eq]
  unfold maxAddr at user
  unfold topDirSz
  omega

theorem virt2Page_lt (addr : Nat) : virt2Page addr < pagetableSz := by
  rw [virt2Page_eq]
  unfold pagetableSz
  omega

theorem virt2Offset_lt (addr : Nat) : virt2Offset addr < pageSize := by
  rw [virt2Offset_eq]
  exact Nat.mod_lt addr (by decide)

theorem virt2_injective {a b : Nat} (table : virt2Pagetable a = virt2Pagetable b)
    (page : virt2Page a = virt2Page b) (offset : virt2Offset a = virt2Offset b) : a = b := by
  rw [virt2Pagetable_eq,virt2Pagetable_eq] at table
  rw [virt2Page_eq,virt2Page_eq] at page
  rw [virt2Offset_eq,virt2Offset_eq] at offset
  omega

abbrev TagPage (T : Type) := Fin pageSize → T
abbrev TagTable (T : Type) := Fin pagetableSz → Option (TagPage T)
abbrev TagDir (T : Type) := Fin topDirSz → Option (TagTable T)

/-- Where the tag of an address is kept. -/
def tableOf (addr : Nat) (user : addr ≤ maxAddr) : Fin topDirSz := ⟨virt2Pagetable addr, virt2Pagetable_lt user⟩
def pageOf (addr : Nat) : Fin pagetableSz := ⟨virt2Page addr, virt2Page_lt addr⟩
def offsetOf (addr : Nat) : Fin pageSize := ⟨virt2Offset addr, virt2Offset_lt addr⟩

theorem place_injective {a b : Nat} {ha : a ≤ maxAddr} {hb : b ≤ maxAddr} (table : tableOf a ha = tableOf b hb)
    (page : pageOf a = pageOf b) (offset : offsetOf a = offsetOf b) : a = b :=
  virt2_injective (congrArg Fin.val table) (congrArg Fin.val page) (congrArg Fin.val offset)

variable {T : Type} [TagTraits T]

def newTable : TagTable T := fun _ => none
def newPage : TagPage T := fun _ => clearedVal

/-- `tag_dir` before the first write. -/
def empty : TagDir T := fun _ => none

def TagTable.put (table : TagTable T) (addr : Nat) (page : TagPage T) (tag : T) : TagTable T :=
  Function.update table (pageOf addr) (some (Function.update page (offsetOf addr) tag))

def tagDirSetb (dir : TagDir T) (addr : Nat) (tag : T) : TagDir T :=
  if beyond : addr > maxAddr then dir
  else
    let i := tableOf addr (Nat.le_of_not_lt beyond)
    let table := (dir i).getD newTable
    let page := (table (pageOf addr)).getD newPage
    Function.update dir i (some (table.put addr page tag))

def tagDirSetbSaveMem (dir : TagDir T) (addr : Nat) (tag : T) : TagDir T :=
  if beyond : addr > maxAddr then dir
  else
    let i := tableOf addr (Nat.le_of_not_lt beyond)
    match dir i with
    | none =>
      if tagIsEmpty tag then dir
      else Function.update dir i (some (TagTable.put newTable addr newPage tag))
    | some table =>
      match table (pageOf addr) with
      | none =>
        if tagIsEmpty tag then dir
        else Function.update dir i (some (TagTable.put table addr newPage tag))
      | some page => Function.update dir i (some (TagTable.put table addr page tag))

/-- The tag pointed to; nothing for the null pointer. -/
def tagDirGetbAsPtr (dir : TagDir T) (addr : Nat) : Option T :=
  if beyond : addr > maxAddr then none
  else
    match dir (tableOf addr (Nat.le_of_not_lt beyond)) with
    | none => some clearedVal
    | some table =>
      match table (pageOf addr) with
      | none => some clearedVal
      | some page => some (page (offsetOf addr))

/-- `*tag_dir_getb_as_ptr(tag_dir, addr)`: nothing where that pointer is null. -/
def tagmapGetb (dir : TagDir T) (addr : Nat) : Option T := tagDirGetbAsPtr dir addr

/-- `tagmap_getn`, over a `tag_combine` that may keep a state of its own; the length is an
`unsigned int`. -/
def tagmapGetn {σ : Type} (tagCombine : T → T → σ → T × σ) (dir : TagDir T) (addr n : Nat) (keeps : σ) :
    Option (T × σ) :=
  (List.range (n % 2 ^ 32)).foldlM (fun (ts,keeps) i => do
    let t ← tagmapGetb dir ((addr + i) % 2 ^ 64)
    return if tagIsEmpty t then (ts,keeps) else tagCombine ts t keeps) (clearedVal,keeps)

section Writers
variable (setb : TagDir T → Nat → T → TagDir T)

/-- `tagmap_clrb` over either writer. -/
def clrb (dir : TagDir T) (addr : Nat) : TagDir T := setb dir addr clearedVal

/-- `tagmap_clrn` over either writer; the length is a `UINT32`, and the loop starts at its
bound or above it when `addr + n` wraps. -/
def clrn (dir : TagDir T) (addr n : Nat) : TagDir T :=
  (List.range' addr ((addr + n % 2 ^ 32) % 2 ^ 64 - addr)).foldl (clrb setb) dir

end Writers

def tagmapSetb (dir : TagDir T) (addr : Nat) (tag : T) : TagDir T := tagDirSetbSaveMem dir addr tag
def tagmapClrb (dir : TagDir T) (addr : Nat) : TagDir T := clrb tagmapSetb dir addr
def tagmapClrn (dir : TagDir T) (addr n : Nat) : TagDir T := clrn tagmapSetb dir addr n

/-! Both writers are one change of a nested array. -/

def shadow (dir : TagDir T) (addr : Nat) (user : addr ≤ maxAddr) : T :=
  Sparse.read newPage (Sparse.read newTable dir (tableOf addr user)) (pageOf addr) (offsetOf addr)

theorem getb_user (dir : TagDir T) {addr : Nat} (user : addr ≤ maxAddr) :
    tagmapGetb dir addr = some (shadow dir addr user) := by
  rw [tagmapGetb,tagDirGetbAsPtr,dif_neg (Nat.not_lt.mpr user)]
  cases table : dir (tableOf addr user) with
  | none => simp [shadow,Sparse.read,table,newTable,newPage]
  | some table' =>
    cases page : table' (pageOf addr) with
    | none => simp [shadow,Sparse.read,table,page,newPage]
    | some page' => simp [shadow,Sparse.read,table,page]

theorem getb_beyond (dir : TagDir T) {addr : Nat} (beyond : maxAddr < addr) : tagmapGetb dir addr = none :=
  dif_pos beyond

/-- The one effect a writer may have on what is read. -/
def Puts (setb : TagDir T → Nat → T → TagDir T) : Prop :=
  ∀ dir addr tag a, tagmapGetb (setb dir addr tag) a =
    if a = addr ∧ a ≤ maxAddr then some tag else tagmapGetb dir a

/-- The tag stored with every missing level allocated. -/
def store (dir : TagDir T) (addr : Nat) (user : addr ≤ maxAddr) (tag : T) : TagDir T :=
  Sparse.modify newTable dir (tableOf addr user) fun table =>
    Sparse.modify newPage table (pageOf addr) fun page => Function.update page (offsetOf addr) tag

theorem shadow_store (dir : TagDir T) {addr a : Nat} (user : addr ≤ maxAddr) (ha : a ≤ maxAddr) (tag : T) :
    shadow (store dir addr user tag) a ha = if a = addr then tag else shadow dir a ha := by
  unfold shadow store newTable
  rw [Sparse.read_read_modify]
  by_cases same : a = addr
  · subst same
    simp
  · rw [if_neg same]
    split
    next place =>
      rw [place.1,place.2]
      refine Function.update_of_ne (fun offset => same ?_) _ _
      exact place_injective place.1 place.2 offset
    next => rfl

theorem tagDirSetb_user (dir : TagDir T) {addr : Nat} (user : addr ≤ maxAddr) (tag : T) :
    tagDirSetb dir addr tag = store dir addr user tag :=
  dif_neg (Nat.not_lt.mpr user)

/-- An early return happens only for an empty tag where no page is. -/
theorem tagDirSetbSaveMem_user (dir : TagDir T) {addr : Nat} (user : addr ≤ maxAddr) (tag : T) :
    tagDirSetbSaveMem dir addr tag = store dir addr user tag ∨
      tagDirSetbSaveMem dir addr tag = dir ∧ tag = clearedVal ∧ shadow dir addr user = clearedVal := by
  rw [tagDirSetbSaveMem,dif_neg (Nat.not_lt.mpr user)]
  cases table : dir (tableOf addr user) with
  | none =>
    by_cases skip : tagIsEmpty tag
    · exact .inr ⟨by simp [table,skip],empty_iff.mp skip,by simp [shadow,Sparse.read,table,newTable,newPage]⟩
    · exact .inl (by simp [skip,store,Sparse.modify,Sparse.read,table,TagTable.put,newTable])
  | some table' =>
    cases page : table' (pageOf addr) with
    | none =>
      by_cases skip : tagIsEmpty tag
      · exact .inr ⟨by simp [table,page,skip],empty_iff.mp skip,by simp [shadow,Sparse.read,table,page,newPage]⟩
      · exact .inl (by simp [skip,store,Sparse.modify,Sparse.read,table,page,TagTable.put])
    | some page' => exact .inl (by simp [store,Sparse.modify,Sparse.read,table,page,TagTable.put])

theorem shadow_saveMem (dir : TagDir T) {addr a : Nat} (user : addr ≤ maxAddr) (ha : a ≤ maxAddr) (tag : T) :
    shadow (tagDirSetbSaveMem dir addr tag) a ha = if a = addr then tag else shadow dir a ha := by
  rcases tagDirSetbSaveMem_user dir user tag with stored | ⟨skipped,isEmpty,blank⟩
  · rw [stored,shadow_store]
  · rw [skipped,isEmpty]
    split
    next same => subst same; exact blank
    next => rfl

theorem puts_of_shadow {setb : TagDir T → Nat → T → TagDir T}
    (beyond : ∀ dir addr tag, maxAddr < addr → setb dir addr tag = dir)
    (user : ∀ dir addr a tag (_ : addr ≤ maxAddr) (ha : a ≤ maxAddr),
      shadow (setb dir addr tag) a ha = if a = addr then tag else shadow dir a ha) : Puts setb := by
  intro dir addr tag a
  by_cases ha : a ≤ maxAddr
  · rw [getb_user _ ha,getb_user _ ha]
    by_cases inside : addr ≤ maxAddr
    · rw [user dir addr a tag inside ha]
      by_cases same : a = addr <;> simp [same,inside]
    · rw [beyond dir addr tag (Nat.lt_of_not_le inside),if_neg]
      rintro ⟨rfl,h⟩
      exact inside h
  · rw [getb_beyond _ (Nat.lt_of_not_le ha),getb_beyond _ (Nat.lt_of_not_le ha),if_neg (fun h => ha h.2)]

theorem tagDirSetb_puts : Puts (T := T) tagDirSetb :=
  puts_of_shadow (fun _ _ _ beyond => dif_pos beyond) fun dir _ _ tag inside ha => by
    rw [tagDirSetb_user dir inside tag,shadow_store]

theorem tagmapSetb_puts : Puts (T := T) tagmapSetb :=
  puts_of_shadow (fun _ _ _ beyond => dif_pos beyond) fun dir _ _ tag inside ha =>
    shadow_saveMem dir inside ha tag

theorem getb_empty {addr : Nat} (user : addr ≤ maxAddr) : tagmapGetb (empty : TagDir T) addr = some clearedVal := by
  rw [getb_user _ user]
  rfl

/-! Clearing a range, over any writer. -/

section Writers
variable {setb : TagDir T → Nat → T → TagDir T}

theorem getb_fold_clrb (puts : Puts setb) (dir : TagDir T) (start len a : Nat) :
    tagmapGetb ((List.range' start len).foldl (clrb setb) dir) a =
      if (start ≤ a ∧ a < start + len) ∧ a ≤ maxAddr then some clearedVal else tagmapGetb dir a := by
  induction len generalizing start dir with
  | zero => simp
  | succ len ih =>
    rw [List.range'_succ,List.foldl_cons,ih,clrb,puts]
    by_cases user : a ≤ maxAddr
    · by_cases first : a = start
      · subst first
        simp [user]
      · have shift : start + 1 ≤ a ∧ a < start + 1 + len ↔ start ≤ a ∧ a < start + (len + 1) := by omega
        simp only [shift,first,user,and_true,if_false]
    · simp [user]

/-- The bytes that `tagmap_clrn` goes over. -/
def cleared (addr n a : Nat) : Prop := addr ≤ a ∧ a < (addr + n % 2 ^ 32) % 2 ^ 64

instance (addr n a : Nat) : Decidable (cleared addr n a) := inferInstanceAs (Decidable (_ ∧ _))

theorem getb_clrn (puts : Puts setb) (dir : TagDir T) (addr n a : Nat) :
    tagmapGetb (clrn setb dir addr n) a =
      if cleared addr n a ∧ a ≤ maxAddr then some clearedVal else tagmapGetb dir a := by
  rw [clrn,getb_fold_clrb puts]
  refine if_congr (and_congr ?_ Iff.rfl) rfl rfl
  unfold cleared
  omega

end Writers

/-! Sequences of writes, and the total map they build. -/

inductive Write (T : Type) where
  | setb (addr : Nat) (tag : T)
  | clrb (addr : Nat)
  | clrn (addr n : Nat)

namespace Write

def addr : Write T → Nat
  | setb addr _ | clrb addr | clrn addr _ => addr

/-- What is written to every byte that the call covers. -/
def tag : Write T → T
  | setb _ tag => tag
  | clrb _ | clrn _ _ => clearedVal

def Covers (w : Write T) (a : Nat) : Prop :=
  match w with
  | setb addr _ | clrb addr => a = addr
  | clrn addr n => addr ≤ a ∧ a < addr + n % 2 ^ 32

instance (w : Write T) (a : Nat) : Decidable (w.Covers a) :=
  match w with
  | setb _ _ | clrb _ => inferInstanceAs (Decidable (a = _))
  | clrn _ _ => inferInstanceAs (Decidable (_ ∧ _))

/-- The call, made through one of the two writers. -/
def perform (writer : TagDir T → Nat → T → TagDir T) (dir : TagDir T) : Write T → TagDir T
  | setb addr tag => writer dir addr tag
  | clrb addr => TagMap.clrb writer dir addr
  | clrn addr n => TagMap.clrn writer dir addr n

/-- Every call is an overwrite of the bytes it covers, as far as they have tags. -/
theorem getb_perform {writer : TagDir T → Nat → T → TagDir T} (puts : Puts writer) (dir : TagDir T)
    (w : Write T) (user : w.addr ≤ maxAddr) (a : Nat) :
    tagmapGetb (w.perform writer dir) a =
      if w.Covers a ∧ a ≤ maxAddr then some w.tag else tagmapGetb dir a := by
  cases w with
  | setb addr tag => exact puts dir addr tag a
  | clrb addr => exact puts dir addr clearedVal a
  | clrn addr n =>
    refine (getb_clrn puts dir addr n a).trans (if_congr (and_congr_left fun inside => ?_) rfl rfl)
    change addr ≤ maxAddr at user
    unfold cleared Covers maxAddr at *
    omega

end Write

/-- A sequence of calls on a fresh shadow memory. -/
def performAll (writer : TagDir T → Nat → T → TagDir T) (writes : List (Write T)) : TagDir T :=
  writes.foldl (Write.perform writer) empty

/-- The tag last written to an address, if there was one. -/
def lastTag (writes : List (Write T)) (a : Nat) : Option T :=
  (writes.reverse.find? fun w => w.Covers a).map Write.tag

theorem getb_performAll {writer : TagDir T → Nat → T → TagDir T} (puts : Puts writer)
    (writes : List (Write T)) (user : ∀ w ∈ writes, w.addr ≤ maxAddr) {a : Nat} (ha : a ≤ maxAddr) :
    tagmapGetb (performAll writer writes) a = some ((lastTag writes a).getD clearedVal) := by
  induction writes using List.reverseRecOn with
  | nil => exact getb_empty ha
  | append_singleton writes w ih =>
    have before := ih fun w h => user w (List.mem_append_left _ h)
    have inside := user w (List.mem_append_right _ List.mem_cons_self)
    rw [performAll,List.foldl_append,List.foldl_cons,List.foldl_nil,Write.getb_perform puts _ w inside]
    by_cases covers : w.Covers a
    · simp [lastTag,covers,ha]
    · rw [if_neg (fun h => covers h.1)]
      simpa [lastTag,covers,performAll] using before

theorem performAll_agree {writer writer' : TagDir T → Nat → T → TagDir T} (puts : Puts writer)
    (puts' : Puts writer') (writes : List (Write T)) (user : ∀ w ∈ writes, w.addr ≤ maxAddr) (a : Nat) :
    tagmapGetb (performAll writer writes) a = tagmapGetb (performAll writer' writes) a := by
  by_cases ha : a ≤ maxAddr
  · rw [getb_performAll puts writes user ha,getb_performAll puts' writes user ha]
  · rw [getb_beyond _ (Nat.lt_of_not_le ha),getb_beyond _ (Nat.lt_of_not_le ha)]

/-- The shadow memory is a total map: a read returns the last write, or the cleared tag
where there was none or it was empty; other addresses keep their tags; and the writer
that skips allocation cannot be told from the one that does not. -/
theorem shadow_refines_map (writes : List (Write T)) (user : ∀ w ∈ writes, w.addr ≤ maxAddr) :
    (∀ a ≤ maxAddr, tagmapGetb (performAll tagmapSetb writes) a = some ((lastTag writes a).getD clearedVal)) ∧
    (∀ a ≤ maxAddr, (∀ tag, lastTag writes a = some tag → tagIsEmpty tag) →
      tagmapGetb (performAll tagmapSetb writes) a = some clearedVal) ∧
    (∀ (dir : TagDir T) (w : Write T) (a : Nat), w.addr ≤ maxAddr → ¬ w.Covers a →
      tagmapGetb (w.perform tagmapSetb dir) a = tagmapGetb dir a) ∧
    ∀ a, tagmapGetb (performAll tagDirSetbSaveMem writes) a = tagmapGetb (performAll tagDirSetb writes) a := by
  refine ⟨fun a ha => getb_performAll tagmapSetb_puts writes user ha,fun a ha blank => ?_,
    fun dir w a inside misses => ?_,performAll_agree tagmapSetb_puts tagDirSetb_puts writes user⟩
  · rw [getb_performAll tagmapSetb_puts writes user ha]
    cases last : lastTag writes a with
    | none => rfl
    | some tag => exact congrArg some (empty_iff.mp (blank tag last))
  · rw [Write.getb_perform tagmapSetb_puts dir w inside,if_neg (fun h => misses h.1)]

theorem shadow_refines_map_cleared :
    tagmapGetb (performAll tagmapSetb [.setb 4096 (7 : UInt8),.setb 4097 9,.clrn 4090 7]) 4096 = some 0 ∧
    tagmapGetb (performAll tagmapSetb [.setb 4096 (7 : UInt8),.setb 4097 9,.clrn 4090 7]) 4097 = some 9 := by
  have refines := shadow_refines_map [.setb 4096 (7 : UInt8),.setb 4097 9,.clrn 4090 7] (by decide)
  exact ⟨(refines.1 4096 (by decide)).trans (by decide),(refines.1 4097 (by decide)).trans (by decide)⟩

end TagMap
end Libdft
