import InfixAlgebra.Proofs.Token.Lexical

/-!
# The runs of a text

The numbers and the names in a text are its maximal runs of digits and points and its maximal runs
of letters (`Text.runs`).  They are found by looking ahead, without lexemes, and they are the
lexemes that are numbers or names (`Text.runs_eq_filter`).  What makes them maximal is that no
character of their class stands next to them (`Text.IsRun`).  `Text.factors` counts the places where
a name directly follows a number.
-/

namespace InfixAlgebra.Text

/-- A nonempty run of digits and points. -/
def isNumber (cs : List Char) : Bool := !cs.isEmpty && cs.all isNumeric

/-- A nonempty run of letters. -/
def isName (cs : List Char) : Bool := !cs.isEmpty && cs.all Char.isAlpha

/-- The maximal runs of digits and points and the maximal runs of letters, from left to right. -/
def runs : List Char → List (List Char)
  | [] => []
  | c :: cs =>
    if isNumeric c then (c :: cs.takeWhile isNumeric) :: runs (cs.dropWhile isNumeric)
    else if c.isAlpha then (c :: cs.takeWhile Char.isAlpha) :: runs (cs.dropWhile Char.isAlpha)
    else runs cs
termination_by cs => cs.length
decreasing_by
  · exact Nat.lt_succ_of_le (List.length_dropWhile_le ..)
  · exact Nat.lt_succ_of_le (List.length_dropWhile_le ..)
  · exact Nat.lt_succ_self _

/-- A nonempty run of characters of a class, with no other ones next to it. -/
def IsRun (p : Char → Bool) (run cs : List Char) : Prop :=
  run ≠ [] ∧ (∀ c ∈ run, p c = true) ∧ ∃ before after, cs = before ++ run ++ after ∧
    (∀ c ∈ before.getLast?, p c = false) ∧ ∀ c ∈ after.head?, p c = false

/-- How often a letter directly follows a digit or a point, that is, a name follows a number. -/
def factors : List Char → Nat
  | c :: d :: cs => (isNumeric c && d.isAlpha).toNat + factors (d :: cs)
  | _ => 0

variable {a b c : Char} {cs ds run : List Char} {ls ms : List (List Char)}

theorem isNumber_iff : isNumber cs = true ↔ cs ≠ [] ∧ ∀ c ∈ cs, isNumeric c = true := by
  simp [isNumber]

theorem isName_iff : isName cs = true ↔ cs ≠ [] ∧ ∀ c ∈ cs, c.isAlpha = true := by
  simp [isName]

theorem isNumber_cons (h : isNumeric c = false) (cs : List Char) : isNumber (c :: cs) = false := by
  simp [isNumber, h]

theorem isName_cons (h : c.isAlpha = false) (cs : List Char) : isName (c :: cs) = false := by
  simp [isName, h]

/-! ## Lexemes at the beginning of a text -/

theorem flatten_lexemes (cs : List Char) : (lexemes cs).flatten = cs :=
  List.flatten_splitBy joined cs

/-- Two texts that do not join where they meet have the lexemes of both. -/
theorem lexemes_append (h : ∀ a ∈ cs.getLast?, ∀ b ∈ ds.head?, joined a b = false) :
    lexemes (cs ++ ds) = lexemes cs ++ lexemes ds :=
  List.splitBy_append h

/-- What joins no character of the text behind it is a lexeme of its own. -/
theorem lexemes_run_append {run : List Char} (hn : run ≠ [])
    (hr : run.IsChain fun a b => joined a b = true)
    (h : ∀ a ∈ run.getLast?, ∀ b ∈ cs.head?, joined a b = false) :
    lexemes (run ++ cs) = run :: lexemes cs := by
  rw [lexemes_append h, lexemes, List.splitBy_of_isChain hn hr]
  rfl

theorem lexemes_cons_of_isSingle (h : isSingle c = true) (cs : List Char) :
    lexemes (c :: cs) = [c] :: lexemes cs := by
  show lexemes ([c] ++ cs) = _
  refine lexemes_run_append (List.cons_ne_nil c []) (List.isChain_singleton c) fun a ha b _ => ?_
  obtain rfl := Option.some.inj ha
  exact joined_of_isSingle_left h b

/-- A text that begins with a character of a class has the run of that class as its first lexeme. -/
theorem lexemes_cons_of_class {p : Char → Bool} (hp : ∀ a, p a = true → ∀ b, joined a b = p b)
    (hc : p c = true) (cs : List Char) :
    lexemes (c :: cs) = (c :: cs.takeWhile p) :: lexemes (cs.dropWhile p) := by
  have hr : ∀ a ∈ c :: cs.takeWhile p, p a = true :=
    List.forall_mem_cons.2 ⟨hc, fun a ha => List.mem_takeWhile_imp ha⟩
  conv_lhs => rw [← List.takeWhile_append_dropWhile (p := p) (l := cs), ← List.cons_append]
  refine lexemes_run_append (List.cons_ne_nil _ _) (isChain_joined_of_class hp hr) ?_
  intro a ha b hb
  have hb' := List.head?_dropWhile_not p cs
  rw [Option.mem_def.1 hb] at hb'
  rw [hp a (hr a (List.mem_of_getLast? ha)), hb']

/-- The runs of a text are its lexemes other than single characters. -/
theorem runs_eq_filter (cs : List Char) :
    runs cs = (lexemes cs).filter fun l => isNumber l || isName l := by
  fun_induction runs cs with
  | case1 => rfl
  | case2 c cs hc ih =>
    have hl : isNumber (c :: cs.takeWhile isNumeric) = true :=
      isNumber_iff.2 ⟨List.cons_ne_nil _ _,
        List.forall_mem_cons.2 ⟨hc, fun a ha => List.mem_takeWhile_imp ha⟩⟩
    rw [lexemes_cons_of_class (fun a => joined_of_isNumeric_left) hc, List.filter_cons, hl, ih]
    rfl
  | case3 c cs _ ha ih =>
    have hl : isName (c :: cs.takeWhile Char.isAlpha) = true :=
      isName_iff.2 ⟨List.cons_ne_nil _ _,
        List.forall_mem_cons.2 ⟨ha, fun a ha => List.mem_takeWhile_imp ha⟩⟩
    rw [lexemes_cons_of_class (fun a => joined_of_isAlpha_left) ha, List.filter_cons, hl,
      Bool.or_true, ih]
    rfl
  | case4 c cs hn ha ih =>
    rw [Bool.not_eq_true] at hn ha
    rw [lexemes_cons_of_isSingle (isSingle_iff.2 ⟨hn, ha⟩), List.filter_cons, isNumber_cons hn,
      isName_cons ha, ih]
    rfl

/-! ## Maximal runs -/

/-- The last character before a place between two lexemes does not join the first one behind it. -/
theorem joined_eq_false_of_lexemes_eq (h : lexemes cs = ls ++ ms) (ha : a ∈ ls.flatten.getLast?)
    (hb : b ∈ ms.flatten.head?) : joined a b = false := by
  have hc := List.isChain_getLast_head_splitBy joined cs
  rw [← lexemes, h, List.isChain_append] at hc
  rcases List.eq_nil_or_concat' ls with rfl | ⟨ls, l, rfl⟩
  · cases ha
  cases ms with
  | nil => cases hb
  | cons m ms =>
    obtain ⟨hl, hm, hj⟩ := hc.2.2 l List.getLast?_concat m rfl
    rw [List.flatten_append, List.flatten_singleton, List.getLast?_append_of_ne_nil _ hl,
      List.getLast?_eq_some_getLast hl, Option.mem_some_iff] at ha
    rw [List.flatten_cons, List.head?_append_of_ne_nil _ hm, List.head?_eq_some_head hm,
      Option.mem_some_iff] at hb
    rw [← ha, ← hb, hj]

section Class

variable {p : Char → Bool} (hp : ∀ a, p a = true → ∀ b, joined a b = p b)

include hp

/-- A maximal run of the characters of a class is a lexeme. -/
theorem lexemes_append_run_append (hn : run ≠ []) (hr : ∀ c ∈ run, p c = true)
    (hc : ∀ c ∈ cs.getLast?, p c = false) (hd : ∀ d ∈ ds.head?, p d = false) :
    lexemes (cs ++ run ++ ds) = lexemes cs ++ run :: lexemes ds := by
  have hl : lexemes (run ++ ds) = run :: lexemes ds := by
    refine lexemes_run_append hn (isChain_joined_of_class hp hr) fun a ha b hb => ?_
    rw [hp a (hr a (List.mem_of_getLast? ha)), hd b hb]
  rw [← hl, List.append_assoc]
  refine lexemes_append fun a ha b hb => ?_
  rw [List.head?_append_of_ne_nil _ hn] at hb
  rw [joined_comm, hp b (hr b (List.mem_of_mem_head? hb)), hc a ha]

/-- No character of a class is next to a lexeme of that class. -/
theorem eq_false_of_lexemes_eq (h : lexemes cs = ls ++ run :: ms) (hn : run ≠ [])
    (hr : ∀ c ∈ run, p c = true) :
    (∀ c ∈ ls.flatten.getLast?, p c = false) ∧ ∀ c ∈ ms.flatten.head?, p c = false := by
  constructor
  · intro a ha
    have hb : run.head hn ∈ (run :: ms).flatten.head? := by
      rw [List.flatten_cons, List.head?_append_of_ne_nil _ hn, List.head?_eq_some_head hn]
      rfl
    rw [← hp _ (hr _ (List.head_mem hn)), joined_comm, joined_eq_false_of_lexemes_eq h ha hb]
  · intro b hb
    have ha : run.getLast hn ∈ (ls ++ [run]).flatten.getLast? := by
      rw [List.flatten_append, List.flatten_singleton, List.getLast?_append_of_ne_nil _ hn,
        List.getLast?_eq_some_getLast hn]
      rfl
    rw [List.append_cons] at h
    rw [← hp _ (hr _ (List.getLast_mem hn)), joined_eq_false_of_lexemes_eq h ha hb]

/-- The maximal runs of a class are the lexemes of that class. -/
theorem isRun_iff_mem_lexemes :
    IsRun p run cs ↔ run ≠ [] ∧ (∀ c ∈ run, p c = true) ∧ run ∈ lexemes cs := by
  refine and_congr_right fun hn => and_congr_right fun hr => ⟨?_, fun h => ?_⟩
  · rintro ⟨before, after, rfl, hb, ha⟩
    rw [lexemes_append_run_append hp hn hr hb ha]
    exact List.mem_append_right _ List.mem_cons_self
  · obtain ⟨ls, ms, hl⟩ := List.append_of_mem h
    refine ⟨ls.flatten, ms.flatten, ?_, eq_false_of_lexemes_eq hp hl hn hr⟩
    rw [← flatten_lexemes cs, hl, List.flatten_append, List.flatten_cons, List.append_assoc]

end Class

/-- The maximal runs of letters are the runs of a text that are names. -/
theorem isRun_isAlpha_iff : IsRun Char.isAlpha run cs ↔ run ∈ runs cs ∧ isName run = true := by
  rw [isRun_iff_mem_lexemes fun _ => joined_of_isAlpha_left, ← and_assoc, ← isName_iff,
    runs_eq_filter, List.mem_filter, and_assoc, and_comm]
  refine and_congr_right fun _ => (and_iff_right_of_imp fun h => ?_).symm
  rw [h, Bool.or_true]

/-! ## Names that follow numbers -/

/-- Characters other than digits and points begin no factor. -/
theorem factors_append_of_not_isNumeric (h : ∀ c ∈ cs, isNumeric c = false) (ds : List Char) :
    factors (cs ++ ds) = factors ds := by
  induction cs with
  | nil => rfl
  | cons c cs ih =>
    rw [List.forall_mem_cons] at h
    rw [← ih h.2, List.cons_append]
    cases cs ++ ds with
    | nil => rfl
    | cons d ds => rw [factors, h.1, Bool.false_and, Bool.toNat_false, Nat.zero_add]

/-- A run of digits and points begins a factor if a letter follows. -/
theorem factors_append_of_isNumber (h : isNumber cs = true) (ds : List Char) :
    factors (cs ++ ds) = (ds.head?.any Char.isAlpha).toNat + factors ds := by
  rw [isNumber_iff] at h
  obtain ⟨hn, h⟩ := h
  induction cs with
  | nil => exact absurd rfl hn
  | cons c cs ih =>
    rw [List.forall_mem_cons] at h
    cases cs with
    | nil =>
      rw [List.singleton_append]
      cases ds with
      | nil => rfl
      | cons d ds => rw [factors, h.1, Bool.true_and, List.head?_cons, Option.any_some]
    | cons d cs =>
      have hd := isAlpha_of_isNumeric (h.2 d List.mem_cons_self)
      rw [← ih (List.cons_ne_nil d cs) h.2, List.cons_append, List.cons_append, factors, hd,
        Bool.and_false, Bool.toNat_false, Nat.zero_add]

/-! ## Blanks at both ends -/

theorem isSingle_of_isBlank (h : isBlank c = true) : isSingle c = true := by
  rw [isSingle_iff, ← Bool.not_eq_true, ← Bool.not_eq_true]
  constructor
  · intro hn
    rw [isBlank_of_isNumeric hn] at h
    cases h
  · intro ha
    rw [isBlank_of_isAlpha ha] at h
    cases h

/-- Only blanks are trimmed away. -/
theorem exists_eq_append_trim (cs : List Char) :
    ∃ before after, cs = before ++ trim cs ++ after ∧ (∀ c ∈ before, isBlank c = true) ∧
      ∀ c ∈ after, isBlank c = true := by
  refine ⟨cs.takeWhile isBlank, ((cs.dropWhile isBlank).reverse.takeWhile isBlank).reverse,
    ?_, fun c hc => List.mem_takeWhile_imp hc, fun c hc => ?_⟩
  · rw [trim, List.append_assoc, ← List.reverse_append, List.takeWhile_append_dropWhile,
      List.reverse_reverse, List.takeWhile_append_dropWhile]
  · exact List.mem_takeWhile_imp (List.mem_reverse.1 hc)

theorem lexemes_blanks_append {bs : List Char} (h : ∀ c ∈ bs, isBlank c = true)
    (cs : List Char) : lexemes (bs ++ cs) = bs.map (fun c => [c]) ++ lexemes cs := by
  induction bs with
  | nil => rfl
  | cons b bs ih =>
    rw [List.forall_mem_cons] at h
    rw [List.cons_append, lexemes_cons_of_isSingle (isSingle_of_isBlank h.1), ih h.2]
    rfl

/-- The blanks at both ends of a text are lexemes of their own. -/
theorem lexemes_append_blanks {bs : List Char} (h : ∀ c ∈ bs, isBlank c = true)
    (cs : List Char) : lexemes (cs ++ bs) = lexemes cs ++ bs.map fun c => [c] := by
  have hl := lexemes_blanks_append h []
  rw [List.append_nil] at hl
  rw [lexemes_append, hl]
  · exact congrArg _ (List.append_nil _)
  · intro a _ b hb
    exact joined_of_isSingle_right (isSingle_of_isBlank (h b (List.mem_of_mem_head? hb))) a

end InfixAlgebra.Text
