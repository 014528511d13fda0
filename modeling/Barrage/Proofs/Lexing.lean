import Barrage.Expr.Parser
import Mathlib.Data.List.TakeWhile

namespace Barrage

namespace Expr
open Text

/-- A word of an expression: a symbol, a run of digits and points, or what follows a `$`. -/
inductive Token where
  | symbol (c : Char)
  | literal (run : List Char)
  | name (run : List Char)

/-- The symbols that are tokens of their own. -/
def IsSymbol (c : Char) : Prop := c ∈ ['+', '-', '*', '/', '%', '(', ')']

/-- No character that satisfies `p` comes next. -/
def Ends (p : Char → Bool) (cs : List Char) : Prop := ∀ c ∈ cs.head?, p c = false

/-- The text is made of these tokens, with blanks around them as one likes. Numbers and names are
as long as they can be. -/
inductive Lexes : List Char → List Token → Prop where
  | nil : Lexes [] []
  | blank {c : Char} {cs : List Char} {ts : List Token} (hc : isBlank c = true)
      (h : Lexes cs ts) : Lexes (c :: cs) ts
  | symbol {c : Char} {cs : List Char} {ts : List Token} (hc : IsSymbol c) (h : Lexes cs ts) :
      Lexes (c :: cs) (.symbol c :: ts)
  | literal {run cs : List Char} {ts : List Token} (hn : run ≠ [])
      (hr : ∀ c ∈ run, isNumberChar c = true) (he : Ends isNumberChar cs) (h : Lexes cs ts) :
      Lexes (run ++ cs) (.literal run :: ts)
  | name {run cs : List Char} {ts : List Token} (hr : ∀ c ∈ run, c.isAlphanum = true)
      (he : Ends Char.isAlphanum cs) (h : Lexes cs ts) :
      Lexes ('$' :: (run ++ cs)) (.name run :: ts)

/-- Digits, with a point before, between or after them or none, and their value. -/
inductive Literal : List Char → Float32 → Prop where
  | whole {ds : List Char} (hd : ∀ c ∈ ds, c.isDigit = true) (hn : ds ≠ []) :
      Literal ds (Binary32.ofDecimal (digitsValue ds) 0)
  | point {ds fs : List Char} (hd : ∀ c ∈ ds ++ fs, c.isDigit = true) (hn : ds ++ fs ≠ []) :
      Literal (ds ++ '.' :: fs) (Binary32.ofDecimal (digitsValue (ds ++ fs)) (-fs.length))

/-- The names of quantities, and the numbers of parameters, which count from one. -/
inductive Names : List Char → Expr → Prop where
  | rand : Names "rand".toList .rand
  | rank : Names "rank".toList .rank
  | direction : Names "direction".toList .direction
  | speed : Names "speed".toList .speed
  | param {ds : List Char} (hd : ∀ c ∈ ds, c.isDigit = true) (hpos : 1 ≤ digitsValue ds)
      (hlt : digitsValue ds < UInt64.size) : Names ds (.param (digitsValue ds - 1))

variable {c : Char} {cs run : List Char} {ts : List Token} {e : Expr} {v : Float32}

section Runs

theorem ends_dropWhile (p : Char → Bool) (cs : List Char) : Ends p (cs.dropWhile p) := by
  intro c hc
  have h := List.head?_dropWhile_not p cs
  rw [Option.mem_def.1 hc] at h
  simpa using h

theorem takeWhile_run {p : Char → Bool} (hr : ∀ c ∈ run, p c = true) (he : Ends p cs) :
    (run ++ cs).takeWhile p = run := by
  rw [List.takeWhile_append_of_pos hr]
  cases cs with
  | nil => simp
  | cons c cs => rw [List.takeWhile_cons_of_neg (by simpa using he c rfl), List.append_nil]

theorem dropWhile_run {p : Char → Bool} (hr : ∀ c ∈ run, p c = true) (he : Ends p cs) :
    (run ++ cs).dropWhile p = cs := by
  rw [List.dropWhile_append_of_pos hr]
  cases cs with
  | nil => rfl
  | cons c cs => exact List.dropWhile_cons_of_neg (by simpa using he c rfl)

end Runs

section Words

theorem isNumberChar_iff : isNumberChar c = true ↔ c.isDigit = true ∨ c = '.' := by
  simp [isNumberChar]

/-- A run of digits and points that is read as a number has at most one point. -/
theorem literal_of_number? (hr : ∀ c ∈ run, isNumberChar c = true) (h : number? run = some v) :
    Literal run v := by
  have hwhole : ∀ c ∈ run.takeWhile Char.isDigit, c.isDigit = true := fun c hc =>
    List.mem_takeWhile_imp hc
  have hsplit := List.takeWhile_append_dropWhile (p := Char.isDigit) (l := run)
  have hstop := ends_dropWhile Char.isDigit run
  unfold number? at h
  generalize run.takeWhile Char.isDigit = ds, run.dropWhile Char.isDigit = rest at *
  subst hsplit
  cases rest with
  | nil =>
    simp only [List.drop_nil, List.append_nil, List.all_nil, Bool.true_and] at h ⊢
    split at h
    · rename_i hn
      cases h
      exact .whole hwhole (by simpa using hn)
    · cases h
  | cons d fs =>
    have hpoint : d = '.' := by
      have hd := isNumberChar_iff.1 (hr d (by simp))
      rw [hstop d rfl] at hd
      simpa using hd
    subst hpoint
    simp only [List.drop_one, List.tail_cons] at h
    split at h
    · rename_i hn
      cases h
      rw [Bool.and_eq_true, List.all_eq_true] at hn
      apply Literal.point
      · intro c hc
        exact (List.mem_append.1 hc).elim (hwhole c) (hn.1 c)
      · simpa using hn.2
    · cases h

theorem number?_of_literal (h : Literal run v) : number? run = some v := by
  cases h with
  | whole hd hn =>
    have htake : run.takeWhile Char.isDigit = run := by
      rw [List.takeWhile_eq_self_iff]
      exact hd
    have hdrop : run.dropWhile Char.isDigit = [] := List.dropWhile_eq_nil_iff.2 hd
    simp [number?, htake, hdrop, hn]
  | @point ds fs hd hn =>
    have hstop : Ends Char.isDigit ('.' :: fs) := by
      intro c hc
      cases hc
      rfl
    have htake : (ds ++ '.' :: fs).takeWhile Char.isDigit = ds :=
      takeWhile_run (fun c hc => hd c (List.mem_append_left _ hc)) hstop
    have hdrop : (ds ++ '.' :: fs).dropWhile Char.isDigit = '.' :: fs :=
      dropWhile_run (fun c hc => hd c (List.mem_append_left _ hc)) hstop
    have hall : fs.all Char.isDigit = true :=
      List.all_eq_true.2 fun c hc => hd c (List.mem_append_right _ hc)
    have hsome : (ds ++ fs).isEmpty = false := List.isEmpty_eq_false_iff.2 hn
    simp only [number?, htake, hdrop, List.drop_one, List.tail_cons, hall, hsome, Bool.not_false,
      Bool.and_self, if_true]

theorem names_of_quantity? (h : quantity? run = some e) : Names run e := by
  have spelled {s : String} (hs : String.ofList run = s) : run = s.toList := by
    rw [← hs, String.toList_ofList]
  unfold quantity? at h
  split at h
  · rename_i hn
    cases h
    exact spelled hn ▸ .rand
  · rename_i hn
    cases h
    exact spelled hn ▸ .rank
  · rename_i hn
    cases h
    exact spelled hn ▸ .direction
  · rename_i hn
    cases h
    exact spelled hn ▸ .speed
  · simp only at h
    split at h
    · rename_i hk
      cases h
      simp only [Bool.and_eq_true, decide_eq_true_iff, List.all_eq_true] at hk
      exact .param hk.1.1 hk.1.2 hk.2
    · cases h

theorem quantity?_of_param (hd : ∀ c ∈ run, c.isDigit = true) (hpos : 1 ≤ digitsValue run)
    (hlt : digitsValue run < UInt64.size) : quantity? run = some (.param (digitsValue run - 1)) := by
  have differs {s : String} {d : Char} (hs : d ∈ s.toList) (hn : d.isDigit = false) :
      String.ofList run ≠ s := by
    rintro rfl
    rw [String.toList_ofList] at hs
    rw [hd d hs] at hn
    cases hn
  have hall : run.all Char.isDigit = true := List.all_eq_true.2 hd
  have hk : (run.all Char.isDigit && decide (1 ≤ digitsValue run) &&
      decide (digitsValue run < UInt64.size)) = true := by
    simp only [hall, hpos, hlt, Bool.true_and, decide_true]
  unfold quantity?
  split
  · rename_i h
    exact absurd h (differs (d := 'r') (by decide) rfl)
  · rename_i h
    exact absurd h (differs (d := 'r') (by decide) rfl)
  · rename_i h
    exact absurd h (differs (d := 'd') (by decide) rfl)
  · rename_i h
    exact absurd h (differs (d := 's') (by decide) rfl)
  · simp only [hk, if_true]

theorem quantity?_of_names (h : Names run e) : quantity? run = some e := by
  cases h with
  | rand => rfl
  | rank => rfl
  | direction => rfl
  | speed => rfl
  | param hd hpos hlt => exact quantity?_of_param hd hpos hlt

end Words

section Inversion

/-- What stands at the beginning of a text of which all blanks are read. -/
def Begins (cs : List Char) : List Token → Prop
  | [] => cs = []
  | .symbol c :: ts => ∃ rest, cs = c :: rest ∧ Lexes rest ts
  | .literal run :: ts => ∃ rest, cs = run ++ rest ∧ run ≠ [] ∧
      (∀ c ∈ run, isNumberChar c = true) ∧ Ends isNumberChar rest ∧ Lexes rest ts
  | .name run :: ts => ∃ rest, cs = '$' :: (run ++ rest) ∧
      (∀ c ∈ run, c.isAlphanum = true) ∧ Ends Char.isAlphanum rest ∧ Lexes rest ts

theorem isBlank_of_symbol (h : IsSymbol c) : isBlank c = false := by
  simp only [IsSymbol, List.mem_cons, List.not_mem_nil, or_false] at h
  rcases h with rfl | rfl | rfl | rfl | rfl | rfl | rfl <;> decide

theorem isBlank_of_number (h : isNumberChar c = true) : isBlank c = false := by
  rcases isNumberChar_iff.1 h with hd | rfl
  · simp only [Char.isDigit, Bool.and_eq_true, decide_eq_true_iff, ge_iff_le,
      UInt32.le_iff_toNat_le] at hd
    simp only [isBlank, ← UInt32.toNat_inj, UInt32.le_iff_toNat_le, Bool.or_eq_false_iff,
      Bool.and_eq_false_iff, decide_eq_false_iff_not, beq_eq_false_iff_ne, ne_eq]
    simp at hd ⊢
    omega
  · decide

theorem dropWhile_literal (hn : run ≠ []) (hr : ∀ c ∈ run, isNumberChar c = true) :
    (run ++ cs).dropWhile isBlank = run ++ cs := by
  obtain ⟨d, ds, rfl⟩ := List.exists_cons_of_ne_nil hn
  rw [List.cons_append, List.dropWhile_cons_of_neg]
  simp [isBlank_of_number (hr d List.mem_cons_self)]

theorem Lexes.begins (h : Lexes cs ts) : Begins (cs.dropWhile isBlank) ts := by
  induction h with
  | nil => rfl
  | blank hc _ ih =>
    rw [List.dropWhile_cons_of_pos hc]
    exact ih
  | symbol hc h _ =>
    rw [List.dropWhile_cons_of_neg (by simp [isBlank_of_symbol hc])]
    exact ⟨_, rfl, h⟩
  | literal hn hr he h _ =>
    rw [dropWhile_literal hn hr]
    exact ⟨_, rfl, hn, hr, he, h⟩
  | name hr he h _ =>
    rw [List.dropWhile_cons_of_neg (by decide)]
    exact ⟨_, rfl, hr, he, h⟩

theorem Lexes.blanks (h : Lexes (cs.dropWhile isBlank) ts) : Lexes cs ts := by
  induction cs with
  | nil => exact h
  | cons c cs ih =>
    cases hc : isBlank c with
    | true =>
      rw [List.dropWhile_cons_of_pos hc] at h
      exact .blank hc (ih h)
    | false =>
      rw [List.dropWhile_cons_of_neg (by simp [hc])] at h
      exact h

theorem Lexes.skip (h : Lexes cs ts) : Lexes (cs.dropWhile isBlank) ts := by
  induction h with
  | nil => exact .nil
  | blank hc _ ih =>
    rw [List.dropWhile_cons_of_pos hc]
    exact ih
  | symbol hc h _ =>
    rw [List.dropWhile_cons_of_neg (by simp [isBlank_of_symbol hc])]
    exact .symbol hc h
  | literal hn hr he h _ =>
    rw [dropWhile_literal hn hr]
    exact .literal hn hr he h
  | name hr he h _ =>
    rw [List.dropWhile_cons_of_neg (by decide)]
    exact .name hr he h

end Inversion

end Expr
end Barrage
