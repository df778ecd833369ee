import Libdft.Ewah

/-! What `logicalor` writes: the words of both bitmaps together, as far as the shorter one goes. Each
pass of its loop takes as many words from one as from the other. -/
namespace Libdft.Ewah

open EWAHBoolArray

/-- Word by word. -/
def orWords (x y : List Word) : List Word := x.zipWith (· ||| ·) y

theorem orWords_comm (x y : List Word) : orWords x y = orWords y x := List.zipWith_comm_of_comm BitVec.or_comm

theorem length_orWords (x y : List Word) : (orWords x y).length = min x.length y.length := List.length_zipWith

theorem take_orWords (x y : List Word) (n : Nat) : (orWords x y).take n = orWords (x.take n) (y.take n) := List.take_zipWith

theorem drop_orWords (x y : List Word) (n : Nat) : (orWords x y).drop n = orWords (x.drop n) (y.drop n) := List.drop_zipWith

theorem orWords_append {x y : List Word} (same : x.length = y.length) (x' y' : List Word) :
    orWords (x ++ x') (y ++ y') = orWords x y ++ orWords x' y' := List.zipWith_append same

/-- The words of a longer one that are over go with what comes next. -/
theorem orWords_over {x y : List Word} (le : x.length ≤ y.length) (x' y' : List Word) :
    orWords (x ++ x') (y ++ y') = orWords x y ++ orWords x' (y.drop x.length ++ y') := by
  have first : orWords x y = orWords x (y.take x.length) := by
    have all := take_orWords x y x.length
    rwa [List.take_of_length_le (by rw [length_orWords]; omega),List.take_length] at all
  calc orWords (x ++ x') (y ++ y')
      = orWords (x ++ x') (y.take x.length ++ (y.drop x.length ++ y')) := by rw [← List.append_assoc,List.take_append_drop]
    _ = orWords x (y.take x.length) ++ orWords x' (y.drop x.length ++ y') := orWords_append (by rw [List.length_take]; omega) _ _
    _ = orWords x y ++ orWords x' (y.drop x.length ++ y') := by rw [first]

/-- A run of clean words hides the other operand, or shows it. -/
theorem orWords_clean (v : Bool) (x : List Word) :
    orWords (List.replicate x.length (clean v)) x = if v then List.replicate x.length (clean true) else x := by
  induction x with
  | nil => cases v <;> rfl
  | cons w x ih =>
    rw [orWords] at ih
    rw [orWords,List.length_cons,List.replicate_succ,List.zipWith_cons_cons,ih]
    cases v with
    | false => simp [clean]
    | true =>
      have ones : clean true ||| w = clean true := BitVec.allOnes_or
      simp only [if_true,ones,List.replicate_succ]

/-! One pass. -/

section Pass
variable {prey predator prey' predator' prey'' predator'' : Marker} {c c' c'' : EWAHBoolArray} {n m : Nat}

/-- So many words of both are used up, and in the container. -/
structure Merged (n : Nat) (prey predator prey' predator' : Marker) (c c' : EWAHBoolArray) : Prop where
  left : prey'.words = prey.words.drop n
  right : predator'.words = predator.words.drop n
  emits : Emits c c' ((orWords prey.words predator.words).take n)

theorem Merged.trans (first : Merged n prey predator prey' predator' c c') (second : Merged m prey' predator' prey'' predator'' c' c'') :
    Merged (n + m) prey predator prey'' predator'' c c'' where
  left := by rw [second.left,first.left,List.drop_drop]
  right := by rw [second.right,first.right,List.drop_drop]
  emits := by
    have both := first.emits.trans second.emits
    rwa [first.left,first.right,← drop_orWords,← List.take_add] at both

/-- Both discard what the container was given. -/
theorem Merged.discard (emits : Emits c c' ((orWords prey.words predator.words).take n)) :
    Merged n prey predator (prey.discardFirstWords n) (predator.discardFirstWords n) c c' :=
  ⟨prey.words_discard n,predator.words_discard n,emits⟩

theorem orRun_emits (le : prey.size ≤ predator.size) (c : EWAHBoolArray) :
    Emits c (orRun prey predator c) ((orWords prey.words predator.words).take prey.runningLength) := by
  have run : prey.words.take prey.runningLength = List.replicate prey.runningLength (clean prey.runningBit) := by
    rw [Marker.words,List.take_left' List.length_replicate]
  have long : (predator.words.take prey.runningLength).length = prey.runningLength := by
    rw [List.length_take,Marker.length_words]
    have inside : prey.runningLength ≤ prey.size := Nat.le_add_right _ _
    omega
  have merged := orWords_clean prey.runningBit (predator.words.take prey.runningLength)
  rw [long] at merged
  rw [take_orWords,run,merged]
  unfold orRun
  dsimp only
  cases prey.runningBit with
  | true => exact addStreamOfEmptyWords_emits c true prey.runningLength
  | false =>
    simp only [if_true,Bool.false_eq_true,if_false]
    split
    next inside =>
      rw [Marker.words,List.take_append_of_le_length (by rwa [List.length_replicate]),List.take_replicate,Nat.min_eq_left inside]
      exact addStreamOfEmptyWords_emits c _ _
    next outside =>
      have whole := (addStreamOfEmptyWords_emits c predator.runningBit predator.runningLength).trans
        (addStreamOfDirtyWords_emits _ (predator.literals.take (prey.runningLength - predator.runningLength)))
      have all : (List.replicate predator.runningLength (clean predator.runningBit)).take prey.runningLength =
          List.replicate predator.runningLength (clean predator.runningBit) :=
        List.take_of_length_le (by rw [List.length_replicate]; omega)
      rwa [Marker.words,List.take_append,List.length_replicate,all]

theorem orLiterals_emits (prey₀ : prey.runningLength = 0) (inRun : n ≤ predator.runningLength) (few : n ≤ prey.literals.length) (c : EWAHBoolArray) :
    Emits c (orLiterals prey predator c n) ((orWords prey.words predator.words).take n) := by
  have run : predator.words.take n = List.replicate n (clean predator.runningBit) := by
    rw [Marker.words,List.take_append_of_le_length (by rwa [List.length_replicate]),List.take_replicate,Nat.min_eq_left inRun]
  have literals : prey.words = prey.literals := by rw [Marker.words,prey₀,List.replicate_zero,List.nil_append]
  have long : (prey.literals.take n).length = n := by rw [List.length_take]; omega
  have merged := orWords_clean predator.runningBit (prey.literals.take n)
  rw [long] at merged
  rw [take_orWords,run,literals,orWords_comm,merged]
  unfold orLiterals
  cases predator.runningBit with
  | true => exact addStreamOfEmptyWords_emits c true n
  | false => exact addStreamOfDirtyWords_emits c _

/-- Literal words on both sides, or none of the shorter one. -/
theorem orDirty_emits (prey₀ : prey.runningLength = 0) (none : predator.runningLength = 0 ∨ prey.literals = []) (c : EWAHBoolArray) :
    Emits c ((prey.literals.zipWith (· ||| ·) predator.literals).foldl add c)
      ((orWords prey.words predator.words).take prey.literals.length) := by
  have literals : prey.words = prey.literals := by rw [Marker.words,prey₀,List.replicate_zero,List.nil_append]
  rw [take_orWords,literals,List.take_length]
  rcases none with predator₀ | nothing
  · have literals' : predator.words = predator.literals := by rw [Marker.words,predator₀,List.replicate_zero,List.nil_append]
    have all : orWords prey.literals (predator.literals.take prey.literals.length) = orWords prey.literals predator.literals := by
      have same := take_orWords prey.literals predator.literals prey.literals.length
      rw [List.take_length] at same
      rw [← same,List.take_of_length_le (by rw [length_orWords]; omega)]
    rw [literals',all]
    exact addAll_emits c _
  · rw [nothing]
    exact .refl c

theorem discard_run (m : Marker) : m.discardFirstWords m.runningLength = { m with runningLength := 0 } := by
  rw [Marker.discardFirstWords,if_pos (Nat.le_refl _),Nat.sub_self]

/-- Words are taken off literal ones. -/
theorem discard_literals {m : Marker} (none : m.runningLength = 0) (n : Nat) :
    (m.discardFirstWords n).runningLength = 0 ∧ (m.discardFirstWords n).literals = m.literals.drop n := by
  unfold Marker.discardFirstWords
  split
  next few =>
    obtain rfl : n = 0 := by omega
    exact ⟨by rw [none],rfl⟩
  next => exact ⟨rfl,by rw [none,Nat.sub_zero]⟩

theorem orPass_spec (le : prey.size ≤ predator.size) (c : EWAHBoolArray) :
    (orPass prey predator c).1.words = predator.words.drop prey.size ∧
    Emits c (orPass prey predator c).2 (orWords prey.words predator.words) := by
  unfold orPass
  dsimp only
  have first := Merged.discard (orRun_emits le c)
  generalize predator.discardFirstWords prey.runningLength = predator₁ at first ⊢
  rw [discard_run] at first ⊢
  have prey₀ : ({ prey with runningLength := 0 } : Marker).runningLength = 0 := rfl
  have kept : ({ prey with runningLength := 0 } : Marker).literals = prey.literals := rfl
  generalize ({ prey with runningLength := 0 } : Marker) = prey₁ at first prey₀ kept ⊢
  generalize amount : min predator₁.runningLength prey₁.literals.length = n
  have inRun : n ≤ predator₁.runningLength := by omega
  have second := Merged.discard (orLiterals_emits prey₀ inRun (by omega) (orRun prey predator c))
  obtain ⟨prey₂,literals⟩ := discard_literals prey₀ n
  have predator₂ : (predator₁.discardFirstWords n).runningLength = predator₁.runningLength - n := by
    rw [Marker.discardFirstWords,if_pos inRun]
  -- the run of the longer one is used up, or the literal words of the shorter one are
  have none : (predator₁.discardFirstWords n).runningLength = 0 ∨ (prey₁.discardFirstWords n).literals = [] := by
    rw [predator₂,literals]
    rcases Nat.le_total predator₁.runningLength prey₁.literals.length with shorter | longer
    · exact .inl (by omega)
    · exact .inr (List.drop_eq_nil_of_le (by omega))
  have third := Merged.discard (orDirty_emits prey₂ none (orLiterals prey₁ predator₁ (orRun prey predator c) n))
  have whole := (first.trans second).trans third
  have total : prey.runningLength + n + (prey₁.discardFirstWords n).literals.length = prey.size := by
    rw [literals,List.length_drop,kept,Marker.size]
    rw [kept] at amount
    omega
  rw [total] at whole
  have all : (orWords prey.words predator.words).take prey.size = orWords prey.words predator.words :=
    List.take_of_length_le (by rw [length_orWords,Marker.length_words]; omega)
  exact ⟨whole.right,all ▸ whole.emits⟩

/-- A pass, and what follows it. -/
theorem orPass_over {out : EWAHBoolArray} {x y : List Word} (le : prey.size ≤ predator.size) (pass : orPass prey predator c = (predator',c'))
    (rest : Emits c' out (orWords x (predator'.words ++ y))) : Emits c out (orWords (prey.words ++ x) (predator.words ++ y)) := by
  obtain ⟨left,emits⟩ := orPass_spec le c
  rw [pass] at left emits
  rw [orWords_over (by rwa [Marker.length_words,Marker.length_words]),Marker.length_words,← left]
  exact emits.trans rest

/-- The loop goes on to where one of the bitmaps ends. -/
theorem orLoop_emits (rlwi : Marker) (i : List Marker) (rlwj : Marker) (j : List Marker) (c : EWAHBoolArray) :
    Emits c (orLoop rlwi i rlwj j c) (orWords (rlwi.words ++ i.flatMap Marker.words) (rlwj.words ++ j.flatMap Marker.words)) := by
  induction rlwi, i, rlwj, j, c using orLoop.induct with
  | case1 rlwi rlwj j c less _ c' pass =>
    rw [orLoop,if_pos less,pass]
    exact orPass_over (Nat.le_of_lt less) pass (.refl c')
  | case2 rlwi rlwj j c less _ c' pass next i ih =>
    rw [orLoop,if_pos less,pass]
    exact orPass_over (Nat.le_of_lt less) pass ih
  | case3 rlwi i rlwj c notLess _ c' pass =>
    rw [orLoop,if_neg notLess,pass,orWords_comm]
    exact orPass_over (Nat.le_of_not_lt notLess) pass (.refl c')
  | case4 rlwi i rlwj c notLess _ c' pass next j ih =>
    rw [orLoop,if_neg notLess,pass,orWords_comm]
    rw [orWords_comm] at ih
    exact orPass_over (Nat.le_of_not_lt notLess) pass ih

end Pass

theorem markers_cons (a : EWAHBoolArray) : ∃ m ms, a.markers = m :: ms ∧ a.words = m.words ++ ms.flatMap Marker.words := by
  unfold words
  cases here : a.markers with
  | nil => simp [markers] at here
  | cons m ms => exact ⟨m,ms,rfl,List.flatMap_cons⟩

theorem empty_fits : empty.Fits := by
  intro m member
  rw [List.mem_singleton.mp (show m ∈ [empty.last] from member)]
  exact ⟨Nat.zero_le _,Nat.zero_le _⟩

/-- The container has the words of both bitmaps, made the same size. -/
theorem logicalor_words (this a : EWAHBoolArray) :
    (this.logicalor a).1.words = orWords (makeSameSize this a).1.words (makeSameSize this a).2.words ∧ (this.logicalor a).1.Fits := by
  unfold logicalor
  obtain ⟨rlwj,j,these,words⟩ := markers_cons (makeSameSize this a).1
  obtain ⟨rlwi,i,those,words'⟩ := markers_cons (makeSameSize this a).2
  have emits := orLoop_emits rlwi i rlwj j empty
  dsimp only
  rw [these,those,words,words',orWords_comm]
  exact ⟨emits.words,emits.fits empty_fits⟩

end Libdft.Ewah
