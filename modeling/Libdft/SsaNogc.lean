import Libdft.SsaBackend

/-! Ssa tags as expressions over input offsets, and the build without collection,
where a tag is the diagram's handle itself and 0 the null tag. The collecting build
is compared with the same expressions in `SsaSets`. -/
namespace Libdft.Ssa

/-- How a tag came about. -/
inductive Expr where
  | null
  | alloc (offset : Nat)
  | combine (lhs rhs : Expr)

namespace Expr

def offsets : Expr → Finset Nat
  | null => ∅
  | alloc offset => {offset}
  | combine lhs rhs => lhs.offsets ∪ rhs.offsets

/-- Every offset fits the 24 variables. -/
def InRange : Expr → Prop
  | null => True
  | alloc offset => offset < 2 ^ tagWidth
  | combine lhs rhs => lhs.InRange ∧ rhs.InRange

theorem InRange.narrow {e : Expr} (inRange : e.InRange) : Narrow e.offsets := by
  induction e with
  | null => exact fun _ member => by simp [offsets] at member
  | alloc offset =>
    intro o member
    rw [Finset.mem_singleton.mp member]
    exact inRange
  | combine lhs rhs ihl ihr =>
    intro o member
    rcases Finset.mem_union.mp member with member | member
    · exact ihl inRange.1 o member
    · exact ihr inRange.2 o member

end Expr

namespace Nogc

/-- `cb_cache_l`, `cb_cache_r` and `cb_cache_v`. -/
structure Tls where
  cacheL : Nat
  cacheR : Nat
  cacheV : Nat

def ssaTagAlloc (backend : Backend) (offset : Nat) : Nat := backend.cube (offsetArray offset)

def ssaTagCombine (backend : Backend) (tls : Tls) (lhs rhs : Nat) : Tls × Nat :=
  if lhs = 0 then (tls, rhs)
  else if rhs = 0 ∨ lhs = rhs then (tls, lhs)
  else if tls.cacheL = lhs ∧ tls.cacheR = rhs then (tls, tls.cacheV)
  else
    let res := backend.union lhs rhs
    (⟨lhs, rhs, res⟩, res)

/-- The sorted `offset_buf` of `ssa_tag_print`. -/
def tagOffsets (backend : Backend) (tag : Nat) : List Nat :=
  if tag = 0 then [] else offsetBuf backend tag

/-- After `ssa_thread_start`. -/
def start : Tls := ⟨0, 0, 0⟩

def eval (backend : Backend) : Expr → Tls → Tls × Nat
  | .null, tls => (tls, 0)
  | .alloc offset, tls => (tls, ssaTagAlloc backend offset)
  | .combine lhs rhs, tls =>
    let (tls, l) := eval backend lhs tls
    let (tls, r) := eval backend rhs tls
    ssaTagCombine backend tls l r

/-- The cache after a history of other expressions. -/
def session (backend : Backend) (history : List Expr) : Tls :=
  history.foldl (fun tls e => (eval backend e tls).1) start

variable {backend : Backend} {canonical : Canonical backend}

/-- The cache holds the union of what it was asked for last. -/
def Coherent (canonical : Canonical backend) (tls : Tls) : Prop :=
  ∃ l r, Narrow l ∧ Narrow r ∧ tls.cacheL = canonical.handle l ∧ tls.cacheR = canonical.handle r ∧
    tls.cacheV = canonical.handle (l ∪ r)

theorem narrow_union {S T : Finset Nat} (narrowS : Narrow S) (narrowT : Narrow T) : Narrow (S ∪ T) := by
  intro o member
  rcases Finset.mem_union.mp member with member | member
  · exact narrowS o member
  · exact narrowT o member

theorem narrow_empty : Narrow ∅ := fun _ member => by simp at member

theorem coherent_start : Coherent canonical start :=
  ⟨∅,∅,narrow_empty,narrow_empty,canonical.handle_empty.symm,canonical.handle_empty.symm,
    by rw [Finset.union_empty]; exact canonical.handle_empty.symm⟩

theorem ssaTagCombine_spec {tls : Tls} {S T : Finset Nat} (coherent : Coherent canonical tls)
    (narrowS : Narrow S) (narrowT : Narrow T) :
    Coherent canonical (ssaTagCombine backend tls (canonical.handle S) (canonical.handle T)).1 ∧
      (ssaTagCombine backend tls (canonical.handle S) (canonical.handle T)).2 =
        canonical.handle (S ∪ T) := by
  have nothing {U : Finset Nat} (narrow : Narrow U) (zero : canonical.handle U = 0) : U = ∅ :=
    canonical.handle_injective narrow narrow_empty (zero.trans canonical.handle_empty.symm)
  unfold ssaTagCombine
  by_cases nullL : canonical.handle S = 0
  · rw [if_pos nullL,nothing narrowS nullL,Finset.empty_union]
    exact ⟨coherent,rfl⟩
  rw [if_neg nullL]
  by_cases trivialR : canonical.handle T = 0 ∨ canonical.handle S = canonical.handle T
  · rw [if_pos trivialR]
    rcases trivialR with nullR | equal
    · rw [nothing narrowT nullR,Finset.union_empty]
      exact ⟨coherent,rfl⟩
    · rw [canonical.handle_injective narrowS narrowT equal,Finset.union_self]
      exact ⟨coherent,rfl⟩
  rw [if_neg trivialR]
  by_cases hit : tls.cacheL = canonical.handle S ∧ tls.cacheR = canonical.handle T
  · rw [if_pos hit]
    obtain ⟨l,r,narrowL,narrowR,cacheL,cacheR,cacheV⟩ := id coherent
    rw [canonical.handle_injective narrowL narrowS (cacheL.symm.trans hit.1),
      canonical.handle_injective narrowR narrowT (cacheR.symm.trans hit.2)] at cacheV
    exact ⟨coherent,cacheV⟩
  · rw [if_neg hit,canonical.handle_union]
    exact ⟨⟨S,T,narrowS,narrowT,rfl,rfl,rfl⟩,rfl⟩

theorem eval_spec {e : Expr} (inRange : e.InRange) {tls : Tls} (coherent : Coherent canonical tls) :
    Coherent canonical (eval backend e tls).1 ∧
      (eval backend e tls).2 = canonical.handle e.offsets := by
  induction e generalizing tls with
  | null => exact ⟨coherent,canonical.handle_empty.symm⟩
  | alloc offset => exact ⟨coherent,canonical.handle_singleton offset⟩
  | combine lhs rhs ihl ihr =>
    obtain ⟨keepL,left⟩ := ihl inRange.1 coherent
    obtain ⟨keepR,right⟩ := ihr inRange.2 keepL
    unfold eval
    dsimp only
    rw [left,right]
    exact ssaTagCombine_spec keepR inRange.1.narrow inRange.2.narrow

theorem session_coherent {history : List Expr} (inRange : ∀ e ∈ history, e.InRange) :
    Coherent canonical (session backend history) := by
  have from_ (tls : Tls) (coherent : Coherent canonical tls) :
      Coherent canonical (history.foldl (fun tls e => (eval backend e tls).1) tls) := by
    induction history generalizing tls with
    | nil => exact coherent
    | cons e history ih =>
      refine ih (fun e member => inRange e (.tail _ member)) _ ?_
      exact (eval_spec (inRange e (.head _)) coherent).1
  exact from_ start coherent_start

/-- After any history, an expression decodes to its offsets in increasing order. -/
theorem tagOffsets_eval {e : Expr} {history : List Expr} (canonical : Canonical backend)
    (inRange : e.InRange) (before : ∀ e ∈ history, e.InRange) :
    tagOffsets backend (eval backend e (session backend history)).2 = e.offsets.sort (· ≤ ·) := by
  have coherent : Coherent canonical (session backend history) := session_coherent before
  rw [(eval_spec inRange coherent).2,tagOffsets]
  split
  · rename_i zero
    rw [canonical.handle_injective inRange.narrow narrow_empty (zero.trans canonical.handle_empty.symm),
      Finset.sort_empty]
  · exact canonical.offsetBuf_handle inRange.narrow

end Nogc

end Libdft.Ssa
