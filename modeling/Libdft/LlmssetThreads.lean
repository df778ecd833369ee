import Libdft.LlmssetTable

/-! Lookups by any number of threads at once. A region belongs to one thread, so that a claimed data
bucket is in no other thread's hands until an entry names it, and every thread knows of the slots
it has passed that they hold other contents. -/
namespace Libdft.Llmsset

/-- A thread has come to its slot past other contents. -/
def Searching (p : Params) (d : Dbs) (l : Lookup) : Prop :=
  ∃ n, l.cursor = p.probing.cursor l.key n ∧ p.probing.Passed d.slots l.key n

/-- A data bucket that the owner of its region has claimed, and no entry names yet. -/
structure Mine (p : Params) (d : Dbs) (region : Option Nat) (c : Nat) : Prop where
  region : region = some (c / 512)
  large : 2 ≤ c
  inside : c < p.tableSize
  marked : isMarked d.bitmap2 c = true
  unpublished : ¬ d.Published c

/-- The content is in the data bucket that was claimed for it, if one was. -/
def Claimed (p : Params) (d : Dbs) (region : Option Nat) (l : Lookup) : Prop :=
  l.cidx ≠ 0 → Mine p d region l.cidx ∧ d.data l.cidx = l.key

def Stored (d : Dbs) (c : Nat) (k : Key) : Prop := d.Published c ∧ d.data c = k

/-- The slot is filled, by an entry for a data bucket. -/
def Filled (d : Dbs) (l : Lookup) (c : Nat) : Prop := d.table l.slot ≠ 0 ∧ indexOf (d.table l.slot) = c

/-- What is true of a thread at its next access. -/
def Fits (p : Params) (d : Dbs) (region : Option Nat) : Pc → Prop
  | .idle => True
  | .read l => Searching p d l ∧ Claimed p d region l
  | .scan l r _ => Searching p d l ∧ l.cidx = 0 ∧ region = some r
  | .load l r i j => Searching p d l ∧ region = some r ∧ i < 8 ∧ j < 64 ∧ isMarked d.bitmap2 ((8 * r + i) * 64 + j) = false
  | .store l r i j w =>
    Searching p d l ∧ region = some r ∧ i < 8 ∧ j < 64 ∧ isMarked d.bitmap2 ((8 * r + i) * 64 + j) = false ∧
      w = d.bitmap2 (8 * r + i)
  | .test l _ r => Searching p d l ∧ l.cidx = 0 ∧ r < p.regions
  | .grab l _ r v => Searching p d l ∧ l.cidx = 0 ∧ r < p.regions ∧ v &&& bit (r % 64) = 0
  | .writeA l => Searching p d l ∧ Mine p d region l.cidx
  | .writeB l => Searching p d l ∧ Mine p d region l.cidx ∧ (d.data l.cidx).1 = l.key.1
  | .publish l => Searching p d l ∧ Mine p d region l.cidx ∧ d.data l.cidx = l.key
  | .reread l => (Searching p d l ∧ Mine p d region l.cidx ∧ d.data l.cidx = l.key) ∧ d.table l.slot ≠ 0
  | .compareA l c => (Searching p d l ∧ Claimed p d region l) ∧ Filled d l c
  | .compareB l c => (Searching p d l ∧ Claimed p d region l) ∧ Filled d l c ∧ (d.data c).1 = l.key.1
  | .loadRelease l c => Mine p d region l.cidx ∧ Stored d c l.key
  | .storeRelease l c w => Mine p d region l.cidx ∧ Stored d c l.key ∧ w = d.bitmap2 (l.cidx / 64)

/-- Entries stay, with the data they name. -/
structure Grows (d d' : Dbs) : Prop where
  table : ∀ q, d.table q ≠ 0 → d'.table q = d.table q
  data : ∀ c, d.Published c → d'.data c = d.data c

/-- What the owner of a region sees of a step of another thread. -/
structure Apart (region : Option Nat) (d d' : Dbs) : Prop where
  fresh : ∀ c, region = some (c / 512) → d'.Published c → d.Published c
  data : ∀ c, region = some (c / 512) → d'.data c = d.data c
  marks : ∀ w, region = some (w / 8) → d'.bitmap2 w = d.bitmap2 w

section Frame
variable {p : Params} {d d' : Dbs} {region : Option Nat} {l : Lookup} {c : Nat}

theorem Grows.refl : Grows d d := ⟨fun _ _ => rfl,fun _ _ => rfl⟩

theorem Apart.refl : Apart region d d := ⟨fun _ _ => id,fun _ _ => rfl,fun _ _ => rfl⟩

theorem Grows.published (grows : Grows d d') (published : d.Published c) : d'.Published c := by
  obtain ⟨q,filled,index⟩ := published
  have same := grows.table q filled
  exact ⟨q,same ▸ filled,same ▸ index⟩

theorem Grows.trans {d'' : Dbs} (first : Grows d d') (second : Grows d' d'') : Grows d d'' where
  table q filled := (second.table q (first.table q filled ▸ filled)).trans (first.table q filled)
  data c published := (second.data c (first.published published)).trans (first.data c published)

theorem Grows.keeps (grows : Grows d d') : Probing.Keeps d.slots d'.slots := by
  intro q k here
  have filled : d.table q ≠ 0 := by
    intro empty
    simp [slots_empty.mpr empty] at here
  have same := grows.table q filled
  rw [slots_filled filled] at here
  rw [slots_filled (same ▸ filled),same,grows.data _ ⟨q,filled,rfl⟩,here]

theorem Searching.grow (searching : Searching p d l) (grows : Grows d d') : Searching p d' l := by
  obtain ⟨n,place,passed⟩ := searching
  exact ⟨n,place,passed.keep grows.keeps⟩

theorem Stored.grow (stored : Stored d c k) (grows : Grows d d') : Stored d' c k :=
  ⟨grows.published stored.1,(grows.data c stored.1).trans stored.2⟩

theorem Filled.grow (filled : Filled d l c) (grows : Grows d d') : Filled d' l c := by
  have same := grows.table _ filled.1
  exact ⟨same ▸ filled.1,same ▸ filled.2⟩

theorem Filled.published (filled : Filled d l c) : d.Published c := ⟨_,filled.1,filled.2⟩

theorem marked_apart (apart : Apart region d d') (mine : region = some (c / 512)) :
    isMarked d'.bitmap2 c = isMarked d.bitmap2 c := by
  have word : c / 64 / 8 = c / 512 := Nat.div_div_eq_div_mul c 64 8
  rw [isMarked,isMarked,apart.marks _ (word ▸ mine)]

theorem Mine.apart (mine : Mine p d region c) (apart : Apart region d d') : Mine p d' region c where
  region := mine.region
  large := mine.large
  inside := mine.inside
  marked := (marked_apart apart mine.region).trans mine.marked
  unpublished published := mine.unpublished (apart.fresh c mine.region published)

theorem Claimed.apart (claimed : Claimed p d region l) (apart : Apart region d d') : Claimed p d' region l := by
  intro some
  obtain ⟨mine,content⟩ := claimed some
  exact ⟨mine.apart apart,(apart.data _ mine.region).trans content⟩

theorem claimed_none (none : l.cidx = 0) : Claimed p d region l := fun some => absurd none some

theorem Mine.claimed (mine : Mine p d region l.cidx) (content : d.data l.cidx = l.key) : Claimed p d region l :=
  fun _ => ⟨mine,content⟩

/-- What is true of a thread stays true when others take steps. -/
theorem Fits.apart {pc : Pc} (fits : Fits p d region pc) (grows : Grows d d') (apart : Apart region d d') :
    Fits p d' region pc := by
  have word {r i : Nat} (owner : region = some r) (i_lt : i < 8) : region = some ((8 * r + i) / 8) := by
    rw [owner]
    exact congrArg some (by omega)
  have block {r i j : Nat} (owner : region = some r) (i_lt : i < 8) (j_lt : j < 64) :
      region = some (((8 * r + i) * 64 + j) / 512) := by
    rw [owner]
    exact congrArg some (by omega)
  cases pc with
  | idle => trivial
  | read l => exact ⟨fits.1.grow grows,fits.2.apart apart⟩
  | scan l r i | test l count r | grab l count r v => exact ⟨fits.1.grow grows,fits.2⟩
  | load l r i j =>
    obtain ⟨searching,owner,i_lt,j_lt,free⟩ := fits
    exact ⟨searching.grow grows,owner,i_lt,j_lt,(marked_apart apart (block owner i_lt j_lt)).trans free⟩
  | store l r i j w =>
    obtain ⟨searching,owner,i_lt,j_lt,free,read⟩ := fits
    exact ⟨searching.grow grows,owner,i_lt,j_lt,(marked_apart apart (block owner i_lt j_lt)).trans free,
      read.trans (apart.marks _ (word owner i_lt)).symm⟩
  | writeA l => exact ⟨fits.1.grow grows,fits.2.apart apart⟩
  | writeB l | publish l =>
    obtain ⟨searching,mine,content⟩ := fits
    exact ⟨searching.grow grows,mine.apart apart,(apart.data _ mine.region).symm ▸ content⟩
  | reread l =>
    obtain ⟨⟨searching,mine,content⟩,filled⟩ := fits
    exact ⟨⟨searching.grow grows,mine.apart apart,(apart.data _ mine.region).symm ▸ content⟩,
      grows.table _ filled ▸ filled⟩
  | compareA l c =>
    obtain ⟨⟨searching,claimed⟩,filled⟩ := fits
    exact ⟨⟨searching.grow grows,claimed.apart apart⟩,filled.grow grows⟩
  | compareB l c =>
    obtain ⟨⟨searching,claimed⟩,filled,first⟩ := fits
    exact ⟨⟨searching.grow grows,claimed.apart apart⟩,filled.grow grows,(grows.data c filled.published).symm ▸ first⟩
  | loadRelease l c => exact ⟨fits.1.apart apart,fits.2.grow grows⟩
  | storeRelease l c w =>
    obtain ⟨mine,stored,read⟩ := fits
    have word : l.cidx / 64 / 8 = l.cidx / 512 := Nat.div_div_eq_div_mul _ 64 8
    exact ⟨mine.apart apart,stored.grow grows,read.trans (apart.marks _ (word ▸ mine.region)).symm⟩

end Frame

structure Invariant (p : Params) (s : State) : Prop where
  table : TableOk p s.dbs
  fits : ∀ t, Fits p s.dbs (s.myRegion t) (s.pc t)
  owned : ∀ t r, s.myRegion t = some r → r < p.regions ∧ isMarked s.dbs.bitmap1 r = true
  alone : ∀ t u r, s.myRegion t = some r → s.myRegion u = some r → t = u
  stored : ∀ ret ∈ s.log, ret.idx ≠ 0 → Stored s.dbs ret.idx ret.key
  created : ∀ ret ∈ s.log, ret.created = true → ret.idx ≠ 0
  once : ((s.log.filter (·.created)).map (·.idx)).Nodup

namespace Invariant
variable {p : Params} {s : State} {t : Tid} {l : Lookup} {d' : Dbs}

/-- A thread changes what its region allows, and goes on. -/
theorem change (inv : Invariant p s) {pc : Pc} (table : TableOk p d') (grows : Grows s.dbs d')
    (others : ∀ u, u ≠ t → Apart (s.myRegion u) s.dbs d') (bitmap1 : d'.bitmap1 = s.dbs.bitmap1)
    (fits : Fits p d' (s.myRegion t) pc) : Invariant p ({ s with dbs := d' }.goto t pc) where
  table := table
  fits u := by
    by_cases self : u = t
    · subst self
      rw [State.goto]
      simpa using fits
    · rw [State.goto]
      simpa [self] using (inv.fits u).apart grows (others u self)
  owned u r owner := by
    have before := inv.owned u r owner
    exact ⟨before.1,bitmap1 ▸ before.2⟩
  alone := inv.alone
  stored ret member some := (inv.stored ret member some).grow grows
  created := inv.created
  once := inv.once

theorem goto (inv : Invariant p s) {pc : Pc} (fits : Fits p s.dbs (s.myRegion t) pc) : Invariant p (s.goto t pc) :=
  inv.change inv.table .refl (fun _ _ => .refl) rfl fits

/-- A lookup returns 0, or the index of its content; a new index is not one returned before. -/
theorem finish (inv : Invariant p s) (idx : Nat) (created : Bool) (stored : idx ≠ 0 → Stored s.dbs idx l.key)
    (some : created = true → idx ≠ 0) (fresh : created = true → ∀ ret ∈ s.log, ret.idx ≠ idx) :
    Invariant p (s.finish t l idx created) := by
  have idle : Invariant p (s.goto t .idle) := inv.goto trivial
  exact {
    table := idle.table
    fits := idle.fits
    owned := idle.owned
    alone := idle.alone
    stored := fun ret member => by
      rcases List.mem_cons.mp member with rfl | before
      · exact stored
      · exact idle.stored ret before
    created := fun ret member => by
      rcases List.mem_cons.mp member with rfl | before
      · exact some
      · exact idle.created ret before
    once := by
      show (((⟨l.key,idx,created⟩ :: s.log).filter (·.created)).map (·.idx)).Nodup
      cases created with
      | false => simpa using inv.once
      | true =>
        rw [List.filter_cons_of_pos rfl,List.map_cons,List.nodup_cons]
        refine ⟨fun member => ?_,inv.once⟩
        obtain ⟨ret,kept,same⟩ := List.mem_map.mp member
        exact fresh rfl ret (List.mem_filter.mp kept).1 same }

theorem fail (inv : Invariant p s) : Invariant p (s.finish t l 0 false) :=
  inv.finish 0 false (fun some => absurd rfl some) (fun created => by cases created) fun created => by cases created

/-- On to the next slot, past another content. -/
theorem moveOn (inv : Invariant p s) (searching : Searching p s.dbs l) (claimed : Claimed p s.dbs (s.myRegion t) l)
    (filled : s.dbs.table l.slot ≠ 0) (other : s.dbs.data (indexOf (s.dbs.table l.slot)) ≠ l.key) :
    Invariant p (s.moveOn p t l) := by
  unfold State.moveOn
  split
  · exact inv.fail
  · obtain ⟨n,place,passed⟩ := searching
    have slot : p.probing.position l.key n = l.slot := congrArg (fun c : Cursor => c.idx.toNat) place.symm
    refine inv.goto ⟨⟨n + 1,congrArg (Cursor.next p l.key) place,passed.succ ?_ other⟩,claimed⟩
    rw [slot]
    exact slots_filled filled

theorem examine (inv : Invariant p s) (searching : Searching p s.dbs l) (claimed : Claimed p s.dbs (s.myRegion t) l)
    (filled : s.dbs.table l.slot ≠ 0) : Invariant p (s.examine p t l (s.dbs.table l.slot)) := by
  unfold State.examine
  split
  · exact inv.goto ⟨⟨searching,claimed⟩,filled,rfl⟩
  next differ =>
    refine inv.moveOn searching claimed filled fun same => differ ?_
    rw [inv.table.hashed l.slot filled,same]

theorem regions_pos (p : Params) : 0 < p.regions := by
  have size : 2 ^ 9 ≤ p.tableSize := Nat.pow_le_pow_right (by decide) p.region_le
  exact Nat.div_pos size (by decide)

theorem seek (inv : Invariant p s) (searching : Searching p s.dbs l) (none : l.cidx = 0) (count next : Nat) :
    Invariant p (s.seek p t l count next) := by
  cases count with
  | zero => exact inv.fail
  | succ count =>
    refine inv.goto ⟨searching,none,?_⟩
    split
    · exact regions_pos p
    next inside => exact Nat.lt_of_not_le inside

theorem claim (inv : Invariant p s) (searching : Searching p s.dbs l) (none : l.cidx = 0) : Invariant p (s.claim p t l) := by
  unfold State.claim
  split
  next r owner => exact inv.goto ⟨searching,none,owner⟩
  next => exact inv.seek searching none _ _

/-- Threads that own a region own different ones. -/
theorem other_region (inv : Invariant p s) {u : Tid} (owner : s.myRegion t = some r) (other : u ≠ t) :
    s.myRegion u ≠ some r :=
  fun owner' => other (inv.alone u t r owner' owner)

/-- A write to a word of the thread's own region. -/
theorem apart_word (inv : Invariant p s) {u : Tid} {w : Nat} (owner : s.myRegion t = some (w / 8)) (other : u ≠ t) (v : Word) :
    Apart (s.myRegion u) s.dbs { s.dbs with bitmap2 := Function.update s.dbs.bitmap2 w v } where
  fresh _ _ := id
  data _ _ := rfl
  marks w' owner' := by
    refine Function.update_of_ne ?_ _ _
    rintro rfl
    exact inv.other_region owner other owner'

theorem store (inv : Invariant p s) (here : s.pc t = .store l r i j w) : Invariant p (s.advance p t) := by
  have fits := inv.fits t
  rw [here] at fits
  obtain ⟨searching,owner,i_lt,j_lt,free,rfl⟩ := fits
  have inside := (inv.owned t r owner).1
  simp only [State.advance,here]
  have size : 512 * p.regions ≤ p.tableSize := Nat.mul_div_le _ _
  have region : ((8 * r + i) * 64 + j) / 512 = r := by omega
  have word : (8 * r + i) / 8 = r := by omega
  have marks (c : Nat) : isMarked (Function.update s.dbs.bitmap2 (8 * r + i) (s.dbs.bitmap2 (8 * r + i) ||| bit j)) c =
      (isMarked s.dbs.bitmap2 c || decide (c = 64 * (8 * r + i) + j)) := isMarked_or j_lt c
  have table := inv.table.marks (Function.update s.dbs.bitmap2 (8 * r + i) (s.dbs.bitmap2 (8 * r + i) ||| bit j))
    fun c _ marked => by rw [marks,marked,Bool.true_or]
  refine inv.change table ⟨fun _ _ => rfl,fun _ _ => rfl⟩ (fun u other => ?_) rfl ⟨searching.grow ⟨fun _ _ => rfl,fun _ _ => rfl⟩,?_⟩
  · exact inv.apart_word (word.symm ▸ owner) other _
  · refine ⟨owner.trans (congrArg some region.symm),?_,?_,?_,fun published => ?_⟩
    · -- the first two buckets are marked from the start
      by_contra low
      have reserved := inv.table.reserved
      have which : (8 * r + i) * 64 + j = 0 ∨ (8 * r + i) * 64 + j = 1 := by
        simp only at low
        omega
      rcases which with zero | one
      · simp [zero,reserved.1] at free
      · simp [one,reserved.2] at free
    · show (8 * r + i) * 64 + j < p.tableSize
      omega
    · rw [marks,Bool.or_eq_true,decide_eq_true_iff]
      exact .inr (by simp only; omega)
    · have marked := (inv.table.inside _ published).2.2
      simp [free] at marked

theorem grab (inv : Invariant p s) (here : s.pc t = .grab l count r v) : Invariant p (s.advance p t) := by
  have fits := inv.fits t
  rw [here] at fits
  obtain ⟨searching,none,inside,free⟩ := fits
  simp only [State.advance,here]
  split
  next read =>
    subst read
    have low := Nat.mod_lt r (by decide : 0 < 64)
    have marks (c : Nat) : isMarked (Function.update s.dbs.bitmap1 (r / 64) (s.dbs.bitmap1 (r / 64) ||| bit (r % 64))) c =
        (isMarked s.dbs.bitmap1 c || decide (c = 64 * (r / 64) + r % 64)) := isMarked_or low c
    have whole : 64 * (r / 64) + r % 64 = r := Nat.div_add_mod r 64
    have unowned (u : Tid) : s.myRegion u ≠ some r := by
      intro owner
      have marked := (inv.owned u r owner).2
      rw [isMarked,decide_eq_true_iff] at marked
      exact marked free
    exact {
      table := inv.table.owners _
      fits u := by
        rw [State.goto]
        by_cases self : u = t
        · subst self
          simpa [Fits] using ⟨searching,none⟩
        · have frame : Fits p { s.dbs with bitmap1 := Function.update s.dbs.bitmap1 (r / 64) (s.dbs.bitmap1 (r / 64) ||| bit (r % 64)) }
              (s.myRegion u) (s.pc u) :=
            (inv.fits u).apart ⟨fun _ _ => rfl,fun _ _ => rfl⟩ ⟨fun _ _ => id,fun _ _ => rfl,fun _ _ => rfl⟩
          simpa [self] using frame
      owned u r' owner := by
        change Function.update s.myRegion t (some r) u = some r' at owner
        change r' < p.regions ∧ isMarked (Function.update s.dbs.bitmap1 (r / 64) _) r' = true
        rw [marks]
        by_cases self : u = t
        · subst self
          rw [Function.update_self] at owner
          obtain rfl := Option.some.inj owner
          exact ⟨inside,by simp [whole]⟩
        · rw [Function.update_of_ne self] at owner
          have before := inv.owned u r' owner
          exact ⟨before.1,by rw [before.2,Bool.true_or]⟩
      alone u u' r' owner owner' := by
        change Function.update s.myRegion t (some r) u = some r' at owner
        change Function.update s.myRegion t (some r) u' = some r' at owner'
        by_cases self : u = t <;> by_cases self' : u' = t
        · rw [self,self']
        · rw [self,Function.update_self] at owner
          rw [Function.update_of_ne self',← owner] at owner'
          exact absurd owner' (unowned u')
        · rw [self',Function.update_self] at owner'
          rw [Function.update_of_ne self,← owner'] at owner
          exact absurd owner (unowned u)
        · rw [Function.update_of_ne self] at owner
          rw [Function.update_of_ne self'] at owner'
          exact inv.alone u u' r' owner owner'
      stored := inv.stored
      created := inv.created
      once := inv.once }
  next => exact inv.goto ⟨searching,none,inside⟩

/-- Half of a content is written to a claimed data bucket. -/
theorem write (inv : Invariant p s) {c : Nat} (mine : Mine p s.dbs (s.myRegion t) c) (x : Key) {pc : Pc}
    (fits : Fits p { s.dbs with data := Function.update s.dbs.data c x } (s.myRegion t) pc) :
    Invariant p ({ s with dbs.data := Function.update s.dbs.data c x }.goto t pc) := by
  refine inv.change (inv.table.data mine.unpublished x) ⟨fun _ _ => rfl,fun c' published => ?_⟩ (fun u other => ?_) rfl fits
  · refine Function.update_of_ne ?_ _ _
    rintro rfl
    exact mine.unpublished published
  · refine ⟨fun _ _ => id,fun c' owner' => ?_,fun _ _ => rfl⟩
    refine Function.update_of_ne ?_ _ _
    rintro rfl
    exact inv.other_region mine.region other owner'

theorem mine_write {c : Nat} (mine : Mine p s.dbs (s.myRegion t) c) (x : Key) :
    Mine p { s.dbs with data := Function.update s.dbs.data c x } (s.myRegion t) c :=
  ⟨mine.region,mine.large,mine.inside,mine.marked,mine.unpublished⟩

theorem searching_write {c : Nat} (mine : Mine p s.dbs (s.myRegion t) c) (searching : Searching p s.dbs l) (x : Key) :
    Searching p { s.dbs with data := Function.update s.dbs.data c x } l := by
  obtain ⟨n,place,passed⟩ := searching
  exact ⟨n,place,by rwa [slots_data mine.unpublished]⟩

theorem publish (inv : Invariant p s) (here : s.pc t = .publish l) : Invariant p (s.advance p t) := by
  have fits := inv.fits t
  rw [here] at fits
  obtain ⟨searching,mine,content⟩ := fits
  simp only [State.advance,here]
  split
  next empty =>
    have some : l.cidx ≠ 0 := fun none => by
      have large := mine.large
      omega
    have small := Nat.lt_of_lt_of_le mine.inside p.tableSize_le
    have published (c : Nat) : (s.dbs.publish p l.slot l.key l.cidx).Published c ↔ s.dbs.Published c ∨ c = l.cidx :=
      published_publish empty some small
    have grows : Grows s.dbs (s.dbs.publish p l.slot l.key l.cidx) := by
      refine ⟨fun q filled => publish_other ?_,fun _ _ => rfl⟩
      rintro rfl
      exact filled empty
    obtain ⟨n,place,passed⟩ := searching
    have slot : p.probing.position l.key n = l.slot := congrArg (fun c : Cursor => c.idx.toNat) place.symm
    have table := inv.table.publish empty some small mine.unpublished content mine.large mine.inside mine.marked slot passed
    have changed : Invariant p ({ s with dbs := s.dbs.publish p l.slot l.key l.cidx }.goto t .idle) := by
      refine inv.change table grows (fun u other => ⟨fun c owner named => ?_,fun _ _ => rfl,fun _ _ => rfl⟩) rfl trivial
      rcases (published c).mp named with before | rfl
      · exact before
      · exact absurd owner (inv.other_region mine.region other)
    have done := changed.finish (t := t) (l := l) l.cidx true (fun _ => ⟨(published _).mpr (.inr rfl),content⟩) (fun _ => some)
      fun _ ret member same => by
        have before := inv.stored ret member (by rw [same]; exact some)
        rw [same] at before
        exact mine.unpublished before.1
    simpa [State.goto,State.finish,Dbs.publish,entry] using done
  next filled => exact inv.goto ⟨⟨searching,mine,content⟩,filled⟩

theorem compareA (inv : Invariant p s) (here : s.pc t = .compareA l c) : Invariant p (s.advance p t) := by
  have fits := inv.fits t
  rw [here] at fits
  obtain ⟨⟨searching,claimed⟩,filled,rfl⟩ := fits
  simp only [State.advance,here]
  split
  next first => exact inv.goto ⟨⟨searching,claimed⟩,⟨filled,rfl⟩,first⟩
  next differ => exact inv.moveOn searching claimed filled fun same => differ (congrArg Prod.fst same)

theorem compareB (inv : Invariant p s) (here : s.pc t = .compareB l c) : Invariant p (s.advance p t) := by
  have fits := inv.fits t
  rw [here] at fits
  obtain ⟨⟨searching,claimed⟩,⟨filled,rfl⟩,first⟩ := fits
  simp only [State.advance,here]
  split
  next second =>
    have stored : Stored s.dbs (indexOf (s.dbs.table l.slot)) l.key := ⟨⟨_,filled,rfl⟩,Prod.ext first second⟩
    split
    next some => exact inv.goto ⟨(claimed some).1,stored⟩
    next => exact inv.finish _ false (fun _ => stored) (fun created => by cases created) fun created => by cases created
  next differ => exact inv.moveOn searching claimed filled fun same => differ (congrArg Prod.snd same)

theorem storeRelease (inv : Invariant p s) (here : s.pc t = .storeRelease l c w) : Invariant p (s.advance p t) := by
  have fits := inv.fits t
  rw [here] at fits
  obtain ⟨mine,stored,rfl⟩ := fits
  simp only [State.advance,here]
  have low := Nat.mod_lt l.cidx (by decide : 0 < 64)
  have marks (c : Nat) : isMarked (Function.update s.dbs.bitmap2 (l.cidx / 64) (s.dbs.bitmap2 (l.cidx / 64) &&& ~~~bit (l.cidx % 64))) c =
      (isMarked s.dbs.bitmap2 c && !decide (c = 64 * (l.cidx / 64) + l.cidx % 64)) := isMarked_clear low c
  have whole : 64 * (l.cidx / 64) + l.cidx % 64 = l.cidx := Nat.div_add_mod _ 64
  have word : l.cidx / 64 / 8 = l.cidx / 512 := Nat.div_div_eq_div_mul _ 64 8
  have table := inv.table.marks
    (Function.update s.dbs.bitmap2 (l.cidx / 64) (s.dbs.bitmap2 (l.cidx / 64) &&& ~~~bit (l.cidx % 64))) fun c' named marked => by
      have other : c' ≠ l.cidx := by
        rintro rfl
        rcases named with published | small
        · exact mine.unpublished published
        · exact absurd mine.large (Nat.not_le_of_lt small)
      rw [marks,marked,whole]
      simp [other]
  have released : Invariant p ({ s with
      dbs.bitmap2 := Function.update s.dbs.bitmap2 (l.cidx / 64) (s.dbs.bitmap2 (l.cidx / 64) &&& ~~~bit (l.cidx % 64)) }.goto t .idle) :=
    inv.change table ⟨fun _ _ => rfl,fun _ _ => rfl⟩ (fun u other => inv.apart_word (word ▸ mine.region) other _) rfl trivial
  have done := released.finish (t := t) (l := l) c false (fun _ => stored) (fun created => by cases created)
    fun created => by cases created
  simpa [State.goto,State.finish] using done

theorem advance (inv : Invariant p s) (t : Tid) : Invariant p (s.advance p t) := by
  have fits := inv.fits t
  cases here : s.pc t with
  | idle => simpa [State.advance,here] using inv
  | read l =>
    rw [here] at fits
    simp only [State.advance,here]
    split
    · split
      next none => exact inv.claim fits.1 none
      next some => exact inv.goto ⟨fits.1,fits.2 some⟩
    next filled => exact inv.examine fits.1 fits.2 filled
  | scan l r i =>
    rw [here] at fits
    simp only [State.advance,here]
    split
    next inside =>
      split
      · exact inv.goto fits
      next room =>
        obtain ⟨small,free⟩ := clz_free room
        refine inv.goto ⟨fits.1,fits.2.2,inside,small,?_⟩
        have word : ((8 * r + i) * 64 + (~~~s.dbs.bitmap2 (8 * r + i)).clz.toNat) / 64 = 8 * r + i := by omega
        have place : ((8 * r + i) * 64 + (~~~s.dbs.bitmap2 (8 * r + i)).clz.toNat) % 64 = (~~~s.dbs.bitmap2 (8 * r + i)).clz.toNat := by
          omega
        rw [isMarked_eq,word,place,free]
    · exact inv.seek fits.1 fits.2.1 _ _
  | load l r i j =>
    rw [here] at fits
    obtain ⟨searching,owner,i_lt,j_lt,free⟩ := fits
    simp only [State.advance,here]
    exact inv.goto ⟨searching,owner,i_lt,j_lt,free,rfl⟩
  | store l r i j w => exact inv.store here
  | test l count r =>
    rw [here] at fits
    simp only [State.advance,here]
    split
    · exact inv.seek fits.1 fits.2.1 _ _
    next free => exact inv.goto ⟨fits.1,fits.2.1,fits.2.2,not_not.mp free⟩
  | grab l count r v => exact inv.grab here
  | writeA l =>
    rw [here] at fits
    simp only [State.advance,here]
    exact inv.write fits.2 _ ⟨searching_write fits.2 fits.1 _,mine_write fits.2 _,by simp⟩
  | writeB l =>
    rw [here] at fits
    obtain ⟨searching,mine,first⟩ := fits
    simp only [State.advance,here]
    exact inv.write mine _ ⟨searching_write mine searching _,mine_write mine _,by simp [first]⟩
  | publish l => exact inv.publish here
  | reread l =>
    rw [here] at fits
    obtain ⟨⟨searching,mine,content⟩,filled⟩ := fits
    simp only [State.advance,here]
    exact inv.examine searching (mine.claimed content) filled
  | compareA l c => exact inv.compareA here
  | compareB l c => exact inv.compareB here
  | loadRelease l c =>
    rw [here] at fits
    simp only [State.advance,here]
    exact inv.goto ⟨fits.1,fits.2,rfl⟩
  | storeRelease l c w => exact inv.storeRelease here

theorem step {a : Act} {next : State} (inv : Invariant p s) (one : Step p s a next) : Invariant p next := by
  cases one with
  | call idle => exact inv.goto ⟨⟨0,rfl,.zero⟩,claimed_none rfl⟩
  | run busy => exact inv.advance _

end Invariant

/-- After `llmsset_create`. -/
def Dbs.fresh (data : Nat → Key) : Dbs := ⟨fun _ => 0,data,fun _ => 0,fun w => if w = 0 then 0xc000000000000000 else 0⟩

theorem Dbs.fresh_ok (p : Params) (data : Nat → Key) : TableOk p (.fresh data) where
  inside _ published := by
    obtain ⟨q,filled,_⟩ := published
    exact absurd rfl filled
  hashed _ filled := absurd rfl filled
  distinct _ _ filled := absurd rfl filled
  consistent := .empty
  reserved := by
    have marks : isMarked (fun w => if w = 0 then 0xc000000000000000 else 0) 0 = true ∧
        isMarked (fun w => if w = 0 then 0xc000000000000000 else 0) 1 = true := by decide
    exact marks

/-- No lookup has begun, and no region has an owner. -/
structure Initial (p : Params) (s : State) : Prop where
  table : TableOk p s.dbs
  idle : ∀ t, s.pc t = .idle
  unowned : ∀ t, s.myRegion t = none
  log : s.log = []

theorem Initial.invariant {p : Params} {s : State} (initial : Initial p s) : Invariant p s where
  table := initial.table
  fits t := by
    rw [initial.idle t]
    trivial
  owned t r owner := by simp [initial.unowned t] at owner
  alone t _ _ owner := by simp [initial.unowned t] at owner
  stored ret member := by simp [initial.log] at member
  created ret member := by simp [initial.log] at member
  once := by simp [initial.log]

/-- What callers rely on: an index stands for one content, and a content has one index, which was
new to one caller. -/
structure Agreed (p : Params) (s : State) : Prop where
  same : ∀ ret ∈ s.log, ∀ ret' ∈ s.log, ret.idx ≠ 0 → ret'.idx ≠ 0 → (ret.idx = ret'.idx ↔ ret.key = ret'.key)
  stored : ∀ ret ∈ s.log, ret.idx ≠ 0 → 2 ≤ ret.idx ∧ ret.idx < p.tableSize ∧ s.dbs.data ret.idx = ret.key
  once : ((s.log.filter (·.created)).map (·.key)).Nodup

theorem Invariant.agreed {p : Params} {s : State} (inv : Invariant p s) : Agreed p s := by
  have same (ret : Return) (member : ret ∈ s.log) (ret' : Return) (member' : ret' ∈ s.log) (some : ret.idx ≠ 0)
      (some' : ret'.idx ≠ 0) : ret.idx = ret'.idx ↔ ret.key = ret'.key := by
    obtain ⟨published,content⟩ := inv.stored ret member some
    obtain ⟨published',content'⟩ := inv.stored ret' member' some'
    constructor
    · intro index
      rw [← content,← content',index]
    · intro key
      exact inv.table.same_key published published' (content.trans (key.trans content'.symm))
  refine ⟨same,fun ret member some => ?_,?_⟩
  · obtain ⟨published,content⟩ := inv.stored ret member some
    obtain ⟨large,inside,_⟩ := inv.table.inside _ published
    exact ⟨large,inside,content⟩
  · refine List.pairwise_map.mpr ((List.pairwise_map.mp inv.once).imp_of_mem ?_)
    intro ret ret' kept kept' differ key
    obtain ⟨member,created⟩ := List.mem_filter.mp kept
    obtain ⟨member',created'⟩ := List.mem_filter.mp kept'
    exact differ ((same ret member ret' member' (inv.created ret member created) (inv.created ret' member' created')).mpr key)

/-- Lookups by any number of threads agree on the indices of contents, in every interleaving. -/
theorem lookups_agree {p : Params} {s₀ s : State} (initial : Initial p s₀) (run : Run (Step p) s₀ trace s) : Agreed p s :=
  (run.invariant (Invariant p) (fun _ _ _ => Invariant.step) initial.invariant).agreed

/-- Two regions, and a hash function that gives every content the same probe sequence. -/
def twoRegions : Params := ⟨10,by decide,by decide,sizeThreshold 10,by decide,fun _ => 0,2⟩

def State.fresh : State := ⟨.fresh fun _ => (0,0),fun _ => none,fun _ => .idle,[]⟩

theorem State.fresh_initial : Initial twoRegions .fresh := ⟨Dbs.fresh_ok _ _,fun _ => rfl,fun _ => rfl,rfl⟩

/-- Two threads claim a data bucket for one content; one publishes its own, the other releases it. -/
def contended : List Act :=
  [.call 0 (5,7),.call 1 (5,7)] ++ List.replicate 8 (.run 0) ++ List.replicate 8 (.run 1) ++ [.run 0] ++ List.replicate 6 (.run 1)

theorem lookups_agree_contended : ∃ s, Run (Step twoRegions) .fresh contended s ∧
    s.log = [⟨(5,7),2,false⟩,⟨(5,7),2,true⟩] ∧ Agreed twoRegions s := by
  have run := run_replay (step_perform twoRegions) (show feasible State.enabled _ .fresh contended = true by decide)
  exact ⟨_,run,by decide,lookups_agree State.fresh_initial run⟩

end Libdft.Llmsset
