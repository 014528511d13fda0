import Barrage.Proofs.Lexing

namespace Barrage

def Op.symbol : Op → Char
  | .add => '+'
  | .sub => '-'
  | .mul => '*'
  | .div => '/'
  | .rem => '%'

/-- How many binary operators an expression holds. -/
def Expr.operators : Expr → Nat
  | .neg e => e.operators
  | .binary _ l r => l.operators + r.operators + 1
  | _ => 0

namespace Expr
open Text

/-- The layers of an expression, of which each is made of the next. -/
inductive Part where
  | expr
  | term
  | unary
  | primary

/-- The tokens are such a part of an expression, in which never more than `n` signs and parentheses
are open, and this is its tree. Operators group to the left. -/
inductive Derives : Part → Nat → List Token → Expr → Prop where
  | term {n : Nat} {ts : List Token} {e : Expr} (h : Derives .term n ts e) : Derives .expr n ts e
  | sum {n : Nat} {op : Op} {ts us : List Token} {l r : Expr} (ho : op = .add ∨ op = .sub)
      (hl : Derives .expr n ts l) (hr : Derives .term n us r) :
      Derives .expr n (ts ++ .symbol op.symbol :: us) (.binary op l r)
  | unary {n : Nat} {ts : List Token} {e : Expr} (h : Derives .unary n ts e) :
      Derives .term n ts e
  | product {n : Nat} {op : Op} {ts us : List Token} {l r : Expr}
      (ho : op = .mul ∨ op = .div ∨ op = .rem) (hl : Derives .term n ts l)
      (hr : Derives .unary n us r) :
      Derives .term n (ts ++ .symbol op.symbol :: us) (.binary op l r)
  | minus {n : Nat} {ts : List Token} {e : Expr} (h : Derives .unary n ts e) :
      Derives .unary (n + 1) (.symbol '-' :: ts) (negate e)
  | plus {n : Nat} {ts : List Token} {e : Expr} (h : Derives .unary n ts e) :
      Derives .unary (n + 1) (.symbol '+' :: ts) e
  | primary {n : Nat} {ts : List Token} {e : Expr} (h : Derives .primary n ts e) :
      Derives .unary n ts e
  | group {n : Nat} {ts : List Token} {e : Expr} (h : Derives .expr n ts e) :
      Derives .primary (n + 1) (.symbol '(' :: (ts ++ [.symbol ')'])) e
  | literal {n : Nat} {run : List Char} {v : Float32} (h : Literal run v) :
      Derives .primary n [.literal run] (.const v)
  | name {n : Nat} {run : List Char} {e : Expr} (h : Names run e) :
      Derives .primary n [.name run] e

variable {part sub : Part} {n : Nat} {ts us : List Token} {e l r : Expr} {c c' c'' : Cursor}
  {op? : Char → Option Op} {piece inner : Parser} {a : Char} {op : Op} {run : List Char}

theorem operators_negate (e : Expr) : (negate e).operators = e.operators := by
  cases e <;> rfl

theorem ok_of_bind {ε α β : Type} {x : Except ε α} {f : α → Except ε β} {b : β}
    (h : x >>= f = .ok b) : ∃ a, x = .ok a ∧ f a = .ok b := by
  cases x with
  | error e => cases h
  | ok a => exact ⟨a, rfl, h⟩

section Cursor

theorem drop_length_takeWhile (p : Char → Bool) (cs : List Char) :
    cs.drop (cs.takeWhile p).length = cs.dropWhile p := by
  induction cs with
  | nil => rfl
  | cons c cs ih =>
    cases hc : p c with
    | true => rw [List.takeWhile_cons_of_pos hc, List.dropWhile_cons_of_pos hc]; exact ih
    | false =>
      rw [List.takeWhile_cons_of_neg (by simp [hc]), List.dropWhile_cons_of_neg (by simp [hc])]
      rfl

theorem Cursor.rest_skipBlank (c : Cursor) : c.skipBlank.rest = c.rest.dropWhile isBlank :=
  drop_length_takeWhile isBlank c.rest

theorem Cursor.rest_drop_one {rest : List Char} (h : c.rest = a :: rest) :
    (c.drop 1).rest = rest := by
  rw [Cursor.drop, h]
  rfl

theorem Cursor.countOperator_ok (h : c.countOperator = .ok c') :
    c'.rest = c.rest ∧ c'.operators = c.operators + 1 ∧ c'.operators ≤ maxOperators := by
  unfold countOperator at h
  split at h
  · rename_i hlt
    cases h
    exact ⟨rfl, rfl, hlt⟩
  · cases h

end Cursor

section Levels

/-- The operators of a part, which stand between parts of the next layer. -/
structure Level (op? : Char → Option Op) (part sub : Part) : Prop where
  symbol : ∀ {a op}, op? a = some op → IsSymbol a
  lift : ∀ {n ts e}, Derives sub n ts e → Derives part n ts e
  link : ∀ {a op n ts us l r}, op? a = some op → Derives part n ts l → Derives sub n us r →
    Derives part n (ts ++ .symbol a :: us) (.binary op l r)

theorem additive?_eq_some : additive? a = some op ↔ (op = .add ∨ op = .sub) ∧ a = op.symbol := by
  constructor
  · intro h
    unfold additive? at h
    split at h <;> cases h
    · exact ⟨.inl rfl, rfl⟩
    · exact ⟨.inr rfl, rfl⟩
  · rintro ⟨rfl | rfl, rfl⟩ <;> rfl

theorem multiplicative?_eq_some :
    multiplicative? a = some op ↔ (op = .mul ∨ op = .div ∨ op = .rem) ∧ a = op.symbol := by
  constructor
  · intro h
    unfold multiplicative? at h
    split at h <;> cases h
    · exact ⟨.inl rfl, rfl⟩
    · exact ⟨.inr (.inl rfl), rfl⟩
    · exact ⟨.inr (.inr rfl), rfl⟩
  · rintro ⟨rfl | rfl | rfl, rfl⟩ <;> rfl

theorem isSymbol_operator (op : Op) : IsSymbol op.symbol := by
  cases op <;> simp [IsSymbol, Op.symbol]

theorem level_additive : Level additive? .expr .term where
  symbol h := (additive?_eq_some.1 h).2 ▸ isSymbol_operator _
  lift := .term
  link h hl hr := by
    obtain ⟨ho, rfl⟩ := additive?_eq_some.1 h
    exact .sum ho hl hr

theorem level_multiplicative : Level multiplicative? .term .unary where
  symbol h := (multiplicative?_eq_some.1 h).2 ▸ isSymbol_operator _
  lift := .unary
  link h hl hr := by
    obtain ⟨ho, rfl⟩ := multiplicative?_eq_some.1 h
    exact .product ho hl hr

end Levels

section Operands

/-- What an operand is that begins at a cursor, where `inner` parses what its signs and parentheses
enclose. -/
inductive Operand (inner : Parser) (c : Cursor) : Expr → Cursor → Prop where
  | minus {rest : List Char} {e : Expr} {c' : Cursor} (hc : c.rest = '-' :: rest)
      (h : inner (c.drop 1) = .ok (e, c')) : Operand inner c (negate e) c'
  | plus {rest : List Char} {e : Expr} {c' : Cursor} (hc : c.rest = '+' :: rest)
      (h : inner (c.drop 1) = .ok (e, c')) : Operand inner c e c'
  | group {rest rest' : List Char} {e : Expr} {c' : Cursor} (hc : c.rest = '(' :: rest)
      (h : Expr.sum inner (c.drop 1) = .ok (e, c')) (hc' : c'.skipBlank.rest = ')' :: rest') :
      Operand inner c e (c'.skipBlank.drop 1)
  | name {rest : List Char} {e : Expr} {c' : Cursor} (hc : c.rest = '$' :: rest)
      (h : quantity (c.drop 1) = .ok (e, c')) : Operand inner c e c'
  | literal {d : Char} {rest : List Char} {e : Expr} {c' : Cursor} (hc : c.rest = d :: rest)
      (hd : isNumberChar d = true) (h : number c = .ok (e, c')) : Operand inner c e c'

theorem operand_of_ok (h : operandOver inner c = .ok (e, c')) :
    Operand inner c.skipBlank e c' := by
  unfold operandOver at h
  generalize c.skipBlank = c at h ⊢
  simp only at h
  split at h
  · cases h
  · rename_i hc
    obtain ⟨⟨e, c₁⟩, hi, h⟩ := ok_of_bind h
    cases h
    exact .minus hc hi
  · rename_i hc
    exact .plus hc h
  · rename_i hc
    obtain ⟨⟨e, c₁⟩, hi, h⟩ := ok_of_bind h
    simp only at h
    split at h
    · rename_i hc'
      cases h
      exact .group hc hi hc'
    · cases h
  · rename_i hc
    exact .name hc h
  · rename_i d rest _ _ _ _ hc
    split at h
    · rename_i hd
      exact .literal hc hd h
    · cases h

theorem ok_of_operand (h : Operand inner c.skipBlank e c') :
    operandOver inner c = .ok (e, c') := by
  unfold operandOver
  generalize c.skipBlank = c at h ⊢
  cases h with
  | minus hc h =>
    simp only [hc, h]
    rfl
  | plus hc h => simp only [hc, h]
  | group hc h hc' =>
    simp only [hc, h, bind, Except.bind, hc']
  | name hc h => simp only [hc, h]
  | literal hc hd h =>
    simp only [hc]
    -- A digit or a point is none of the characters that begin the other operands.
    split <;> rename_i he <;> cases he
    · cases hd
    · cases hd
    · cases hd
    · cases hd
    · rw [if_pos hd, h]

end Operands

section Soundness

/-- From one cursor to the other these tokens were read, with as many operators among them. -/
structure Reads (c c' : Cursor) (ts : List Token) (count : Nat) : Prop where
  lexes : ∀ us, Lexes c'.rest us → Lexes c.rest (ts ++ us)
  operators : c'.operators = c.operators + count
  bounded : c.operators ≤ maxOperators → c'.operators ≤ maxOperators

theorem Reads.trans {k m : Nat} (h₁ : Reads c c' ts k) (h₂ : Reads c' c'' us m) :
    Reads c c'' (ts ++ us) (k + m) where
  lexes vs h := by
    rw [List.append_assoc]
    exact h₁.lexes _ (h₂.lexes vs h)
  operators := by rw [h₂.operators, h₁.operators, Nat.add_assoc]
  bounded h := h₂.bounded (h₁.bounded h)

theorem reads_skipBlank (c : Cursor) : Reads c c.skipBlank [] 0 where
  lexes us h := by
    rw [Cursor.rest_skipBlank] at h
    exact h.blanks
  operators := rfl
  bounded h := h

theorem reads_symbol {rest : List Char} (h : c.rest = a :: rest) (hs : IsSymbol a) :
    Reads c (c.drop 1) [.symbol a] 0 where
  lexes us hl := by
    rw [Cursor.rest_drop_one h] at hl
    rw [h]
    exact .symbol hs hl
  operators := rfl
  bounded h := h

theorem reads_operator (h : c.countOperator = .ok c') : Reads c c' [] 1 := by
  obtain ⟨hrest, hops, hbound⟩ := Cursor.countOperator_ok h
  exact ⟨fun us hl => hrest ▸ hl, hops, fun _ => hbound⟩

/-- Whatever the parser accepts derives the tree that it gives. -/
def Accepts (part : Part) (n : Nat) (parser : Parser) : Prop :=
  ∀ {c e c'}, parser c = .ok (e, c') → ∃ ts, Derives part n ts e ∧ Reads c c' ts e.operators

theorem Level.accepts_rest {budget : Nat} (hv : Level op? part sub) (hp : Accepts sub n piece)
    (h : chainRest op? piece budget l c' = .ok (e, c'')) (hl : Derives part n ts l)
    (hr : Reads c c' ts l.operators) :
    ∃ us, Derives part n us e ∧ Reads c c'' us e.operators := by
  induction budget generalizing l c' ts with
  | zero => cases h
  | succ budget ih =>
    rw [chainRest] at h
    have hskip := hr.trans (reads_skipBlank c')
    cases hrest : c'.skipBlank.rest with
    | nil =>
      simp only [hrest, List.head?_nil, Option.bind_none] at h
      cases h
      exact ⟨_, hl, by simpa using hskip⟩
    | cons a rest =>
      simp only [hrest, List.head?_cons, Option.bind_some] at h
      cases hop : op? a with
      | none =>
        simp only [hop] at h
        cases h
        exact ⟨_, hl, by simpa using hskip⟩
      | some op =>
        simp only [hop] at h
        obtain ⟨⟨r, c₁⟩, hpiece, h⟩ := ok_of_bind h
        obtain ⟨c₂, hcount, h⟩ := ok_of_bind h
        obtain ⟨us, hd, hreads⟩ := hp hpiece
        have hall := ((hskip.trans (reads_symbol hrest (hv.symbol hop))).trans hreads).trans
          (reads_operator hcount)
        apply ih h (hv.link hop hl hd)
        simpa [Expr.operators] using hall

theorem Level.accepts (hv : Level op? part sub) (hp : Accepts sub n piece) :
    Accepts part n (chain op? piece) := by
  intro c e c' h
  obtain ⟨⟨l, c₁⟩, hpiece, h⟩ := ok_of_bind h
  obtain ⟨ts, hd, hr⟩ := hp hpiece
  exact hv.accepts_rest hp h (hv.lift hd) hr

theorem reads_quantity {rest : List Char} (hc : c.rest = '$' :: rest)
    (h : quantity (c.drop 1) = .ok (e, c')) :
    ∃ run, Names run e ∧ Reads c c' [.name run] 0 := by
  unfold quantity at h
  rw [Cursor.rest_drop_one hc] at h
  simp only at h
  split at h
  · rename_i hq
    cases h
    refine ⟨_, names_of_quantity? hq, ?_, rfl, fun h => h⟩
    intro us hl
    have hrest : ((c.drop 1).drop (rest.takeWhile Char.isAlphanum).length).rest =
        rest.dropWhile Char.isAlphanum := by
      rw [← drop_length_takeWhile, ← Cursor.rest_drop_one hc]
      rfl
    rw [hrest] at hl
    have hall : ∀ a ∈ rest.takeWhile Char.isAlphanum, a.isAlphanum = true := fun a ha =>
      List.mem_takeWhile_imp ha
    have hlex := Lexes.name hall (ends_dropWhile Char.isAlphanum rest) hl
    rw [List.takeWhile_append_dropWhile] at hlex
    rw [hc]
    exact hlex
  · cases h

theorem reads_number {d : Char} {rest : List Char} (hc : c.rest = d :: rest)
    (hd : isNumberChar d = true) (h : number c = .ok (e, c')) :
    ∃ run v, Literal run v ∧ e = .const v ∧ Reads c c' [.literal run] 0 := by
  unfold number at h
  simp only at h
  split at h
  · rename_i v hq
    cases h
    have hall : ∀ a ∈ c.rest.takeWhile isNumberChar, isNumberChar a = true := fun a ha =>
      List.mem_takeWhile_imp ha
    refine ⟨_, v, literal_of_number? hall hq, rfl, ?_, rfl, fun h => h⟩
    intro us hl
    have hn : c.rest.takeWhile isNumberChar ≠ [] := by
      rw [hc, List.takeWhile_cons_of_pos hd]
      simp
    have hrest : (c.drop (c.rest.takeWhile isNumberChar).length).rest =
        c.rest.dropWhile isNumberChar := drop_length_takeWhile _ _
    rw [hrest] at hl
    have hlex := Lexes.literal hn hall (ends_dropWhile isNumberChar c.rest) hl
    rw [List.takeWhile_append_dropWhile] at hlex
    exact hlex
  · cases h

/-- Signs and parentheses take one level, if there is one. -/
theorem Operand.derives (h : Operand inner c e c')
    (hinner : ∀ {c x}, inner c = .ok x → ∃ m, n = m + 1 ∧ Accepts .unary m inner) :
    ∃ ts, Derives .unary n ts e ∧ Reads c c' ts e.operators := by
  cases h with
  | minus hc h =>
    obtain ⟨m, rfl, hp⟩ := hinner h
    obtain ⟨ts, hd, hr⟩ := hp h
    refine ⟨_, .minus hd, ?_⟩
    rw [operators_negate]
    simpa using (reads_symbol hc (by simp [IsSymbol])).trans hr
  | plus hc h =>
    obtain ⟨m, rfl, hp⟩ := hinner h
    obtain ⟨ts, hd, hr⟩ := hp h
    exact ⟨_, .plus hd, by simpa using (reads_symbol hc (by simp [IsSymbol])).trans hr⟩
  | group hc h hc' =>
    obtain ⟨_, hfirst, _⟩ := ok_of_bind h
    obtain ⟨_, hfirst, _⟩ := ok_of_bind hfirst
    obtain ⟨m, rfl, hp⟩ := hinner hfirst
    obtain ⟨ts, hd, hr⟩ := level_additive.accepts (level_multiplicative.accepts hp) h
    have hopen := (reads_symbol hc (by simp [IsSymbol])).trans hr
    have hclose := (reads_skipBlank _).trans (reads_symbol hc' (by simp [IsSymbol]))
    exact ⟨_, .primary (.group hd), by simpa using hopen.trans hclose⟩
  | name hc h =>
    obtain ⟨run, hn, hr⟩ := reads_quantity hc h
    refine ⟨_, .primary (.name hn), ?_⟩
    cases hn <;> exact hr
  | literal hc hd h =>
    obtain ⟨run, v, hn, rfl, hr⟩ := reads_number hc hd h
    exact ⟨_, .primary (.literal hn), hr⟩

theorem accepts_operand (n : Nat) : Accepts .unary n (operand n) := by
  induction n with
  | zero =>
    intro c e c' h
    obtain ⟨ts, hd, hr⟩ := (operand_of_ok h).derives (n := 0) nofun
    exact ⟨ts, hd, by simpa using (reads_skipBlank c).trans hr⟩
  | succ n ih =>
    intro c e c' h
    obtain ⟨ts, hd, hr⟩ := (operand_of_ok h).derives (n := n + 1) fun _ => ⟨n, rfl, ih⟩
    exact ⟨ts, hd, by simpa using (reads_skipBlank c).trans hr⟩

end Soundness

section Completeness

/-- The parser gives this tree and leaves these tokens. -/
def Consumes (parser : Parser) (c : Cursor) (e : Expr) (us : List Token) : Prop :=
  ∃ c', parser c = .ok (e, c') ∧ Lexes c'.rest us ∧ c'.operators = c.operators + e.operators

/-- A chain that begins at the cursor comes to this tree with these tokens left, and has a budget
for all operators that there may still be. -/
def Reaches (op? : Char → Option Op) (piece : Parser) (c : Cursor) (e : Expr) (us : List Token) :
    Prop :=
  ∃ c' budget, chain op? piece c = chainRest op? piece budget e c' ∧ Lexes c'.rest us ∧
    c'.operators = c.operators + e.operators ∧ maxOperators < budget + e.operators

/-- None of these operators comes next. -/
def Stops (op? : Char → Option Op) (us : List Token) : Prop :=
  ∀ a vs, us = .symbol a :: vs → op? a = none

/-- What begins with a number or a name begins with no operator. -/
theorem Level.head_eq_none (hv : Level op? part sub) (h : Lexes c.rest us) (hs : Stops op? us) :
    c.skipBlank.rest.head?.bind op? = none := by
  have hbegins := h.begins
  rw [← Cursor.rest_skipBlank] at hbegins
  have other {a : Char} (ha : ¬ IsSymbol a) : op? a = none :=
    Option.eq_none_iff_forall_ne_some.2 fun _ ho => ha (hv.symbol ho)
  cases us with
  | nil =>
    rw [show c.skipBlank.rest = [] from hbegins]
    rfl
  | cons t us =>
    cases t with
    | symbol a =>
      obtain ⟨rest, hrest, _⟩ := hbegins
      rw [hrest]
      exact hs a us rfl
    | literal run =>
      obtain ⟨rest, hrest, hn, hr, _⟩ := hbegins
      obtain ⟨d, ds, rfl⟩ := List.exists_cons_of_ne_nil hn
      rw [hrest]
      apply other
      intro hd
      have hnumber := hr d List.mem_cons_self
      simp only [IsSymbol, List.mem_cons, List.not_mem_nil, or_false] at hd
      rcases hd with rfl | rfl | rfl | rfl | rfl | rfl | rfl <;> cases hnumber
    | name run =>
      obtain ⟨rest, hrest, _⟩ := hbegins
      rw [hrest]
      exact other (by simp [IsSymbol])

theorem Level.consumes (hv : Level op? part sub) (h : Reaches op? piece c e us)
    (hs : Stops op? us) (he : e.operators ≤ maxOperators) : Consumes (chain op? piece) c e us := by
  obtain ⟨c', budget, hchain, hl, hops, hbudget⟩ := h
  cases budget with
  | zero => omega
  | succ budget =>
    refine ⟨c'.skipBlank, ?_, ?_, hops⟩
    · rw [hchain, chainRest]
      simp only [hv.head_eq_none hl hs]
    · rw [Cursor.rest_skipBlank]
      exact hl.skip

theorem Consumes.reaches (h : Consumes piece c e us) : Reaches op? piece c e us := by
  obtain ⟨c', hpiece, hl, hops⟩ := h
  refine ⟨c', maxOperators + 1, ?_, hl, hops, by omega⟩
  rw [chain, hpiece]
  rfl

theorem lexes_after_symbol (h : Lexes c.rest (.symbol a :: us)) :
    ∃ rest, c.skipBlank.rest = a :: rest ∧ Lexes (c.skipBlank.drop 1).rest us := by
  obtain ⟨rest, hrest, hl⟩ := h.begins
  rw [← Cursor.rest_skipBlank] at hrest
  exact ⟨rest, hrest, Cursor.rest_drop_one hrest ▸ hl⟩

/-- One more operator and its right side are read. -/
theorem Reaches.link {vs : List Token} (h : Reaches op? piece c l (.symbol a :: us))
    (ha : op? a = some op) (ho : c.operators + (Expr.binary op l r).operators ≤ maxOperators)
    (hr : ∀ c', Lexes c'.rest us → c'.operators + r.operators ≤ maxOperators →
      Consumes piece c' r vs) : Reaches op? piece c (.binary op l r) vs := by
  obtain ⟨c₁, budget, hchain, hl, hops, hbudget⟩ := h
  rw [Expr.operators] at ho
  cases budget with
  | zero => omega
  | succ budget =>
    obtain ⟨rest, hrest, hlex⟩ := lexes_after_symbol hl
    have hdrop : (c₁.skipBlank.drop 1).operators = c.operators + l.operators := hops
    obtain ⟨c₂, hpiece, hl₂, hops₂⟩ := hr _ hlex (by omega)
    have hcount : c₂.countOperator = .ok { c₂ with operators := c₂.operators + 1 } :=
      if_pos (by omega)
    refine ⟨{ c₂ with operators := c₂.operators + 1 }, budget, ?_, hl₂, ?_, ?_⟩
    · rw [hchain, chainRest]
      simp only [hrest, List.head?_cons, Option.bind_some, ha, hpiece]
      change (c₂.countOperator >>= _) = _
      rw [hcount]
      rfl
    · change c₂.operators + 1 = c.operators + (l.operators + r.operators + 1)
      omega
    · rw [Expr.operators]
      omega

/-- How the parser goes on where a part begins: up to the end of an operand, or to where its chain
may go on. A sum ends where no product goes on. -/
def Part.Completes : Part → Nat → Cursor → Expr → List Token → Prop
  | .expr, n, c, e, us => Stops multiplicative? us →
      Reaches additive? (chain multiplicative? (operand n)) c e us
  | .term, n, c, e, us => Reaches multiplicative? (operand n) c e us
  | .unary, n, c, e, us => Consumes (operand n) c e us
  | .primary, n, c, e, us => Consumes (operand n) c e us

theorem consumes_operand (h : Operand inner c.skipBlank e c') (hl : Lexes c'.rest us)
    (ho : c'.operators = c.operators + e.operators) : Consumes (operandOver inner) c e us :=
  ⟨c', ok_of_operand h, hl, ho⟩

theorem operand_eq_over (n : Nat) : ∃ inner, operand n = operandOver inner := by
  cases n with
  | zero => exact ⟨_, rfl⟩
  | succ n => exact ⟨_, rfl⟩

theorem number_of_literal {v : Float32} {rest : List Char} (h : Literal run v)
    (hc : c.rest = run ++ rest) (hr : ∀ a ∈ run, isNumberChar a = true)
    (he : Ends isNumberChar rest) : number c = .ok (.const v, c.drop run.length) := by
  simp only [number, hc, takeWhile_run hr he, number?_of_literal h]

theorem quantity_of_names {rest : List Char} (h : Names run e) (hc : c.rest = run ++ rest)
    (hr : ∀ a ∈ run, a.isAlphanum = true) (he : Ends Char.isAlphanum rest) :
    quantity c = .ok (e, c.drop run.length) := by
  simp only [quantity, hc, takeWhile_run hr he, quantity?_of_names h]

theorem Cursor.rest_drop_run {rest : List Char} (hc : c.rest = run ++ rest) :
    (c.drop run.length).rest = rest := by
  rw [Cursor.drop, hc, List.drop_left]

/-- Whatever derives a tree is parsed to it, unless it has too many operators. -/
theorem Derives.completes (h : Derives part n ts e) (hl : Lexes c.rest (ts ++ us))
    (ho : c.operators + e.operators ≤ maxOperators) : part.Completes n c e us := by
  induction h generalizing c us with
  | term _ ih =>
    intro hs
    exact (level_multiplicative.consumes (ih hl ho) hs (by omega)).reaches
  | @sum n op ts vs l r hop _ _ ihl ihr =>
    intro hs
    have hadd : additive? op.symbol = some op := additive?_eq_some.2 ⟨hop, rfl⟩
    rw [List.append_assoc] at hl
    rw [Expr.operators] at ho
    have hleft := ihl hl (by omega) ?_
    · apply hleft.link hadd (by rw [Expr.operators]; omega)
      intro c' hl' ho'
      exact level_multiplicative.consumes (ihr hl' ho') hs (by omega)
    · rintro a ws he
      cases he
      rcases hop with rfl | rfl <;> rfl
  | unary _ ih => exact (ih hl ho).reaches
  | @product n op ts vs l r hop _ _ ihl ihr =>
    have hmul : multiplicative? op.symbol = some op := multiplicative?_eq_some.2 ⟨hop, rfl⟩
    rw [List.append_assoc] at hl
    rw [Expr.operators] at ho
    have hleft := ihl hl (by omega)
    apply hleft.link hmul (by rw [Expr.operators]; omega)
    intro c' hl' ho'
    exact ihr hl' ho'
  | minus _ ih =>
    obtain ⟨rest, hrest, hlex⟩ := lexes_after_symbol hl
    rw [operators_negate] at ho
    obtain ⟨c', hi, hl', ho'⟩ := ih hlex ho
    apply consumes_operand (.minus hrest hi) hl'
    rw [operators_negate]
    exact ho'
  | plus _ ih =>
    obtain ⟨rest, hrest, hlex⟩ := lexes_after_symbol hl
    obtain ⟨c', hi, hl', ho'⟩ := ih hlex ho
    exact consumes_operand (.plus hrest hi) hl' ho'
  | primary _ ih => exact ih hl ho
  | @group n ts e _ ih =>
    rw [List.cons_append, List.append_assoc] at hl
    obtain ⟨rest, hrest, hlex⟩ := lexes_after_symbol hl
    have hclose {op? : Char → Option Op} (h : op? ')' = none) :
        Stops op? ([.symbol ')'] ++ us) := by
      rintro a ws he
      cases he
      exact h
    have hsum := level_additive.consumes (ih hlex ho (hclose rfl)) (hclose rfl) (by omega)
    obtain ⟨c', hi, hl', ho'⟩ := hsum
    obtain ⟨rest', hrest', hlex'⟩ := lexes_after_symbol hl'
    exact consumes_operand (.group hrest hi hrest') hlex' ho'
  | @literal n run v h =>
    obtain ⟨rest, hrest, hn, hr, he, hlex⟩ := hl.begins
    rw [← Cursor.rest_skipBlank] at hrest
    obtain ⟨d, ds, rfl⟩ := List.exists_cons_of_ne_nil hn
    obtain ⟨inner, hover⟩ := operand_eq_over n
    simp only [Part.Completes, hover]
    have hnumber := number_of_literal h hrest hr he
    apply consumes_operand (.literal hrest (hr d List.mem_cons_self) hnumber) _ rfl
    rw [Cursor.rest_drop_run hrest]
    exact hlex
  | @name n run e h =>
    obtain ⟨rest, hrest, hr, he, hlex⟩ := hl.begins
    rw [← Cursor.rest_skipBlank] at hrest
    obtain ⟨inner, hover⟩ := operand_eq_over n
    simp only [Part.Completes, hover]
    have hdrop := Cursor.rest_drop_one hrest
    have hquantity := quantity_of_names h hdrop hr he
    apply consumes_operand (.name hrest hquantity)
    · rw [Cursor.rest_drop_run hdrop]
      exact hlex
    · cases h <;> rfl

end Completeness

section Parse

theorem parseChars_sound {cs : List Char} (h : parseChars cs = .ok e) :
    ∃ ts, Lexes cs ts ∧ Derives .expr maxDepth ts e ∧ e.operators ≤ maxOperators := by
  obtain ⟨⟨e', c⟩, hsum, h⟩ := ok_of_bind h
  simp only at h
  split at h
  · rename_i hrest
    cases h
    obtain ⟨ts, hd, hr⟩ :=
      level_additive.accepts (level_multiplicative.accepts (accepts_operand maxDepth)) hsum
    have hend := hr.trans (reads_skipBlank c)
    have hl := hend.lexes [] (hrest ▸ .nil)
    have hbound := hr.bounded (Nat.zero_le _)
    rw [hr.operators, Nat.zero_add] at hbound
    exact ⟨ts, by simpa using hl, hd, hbound⟩
  · cases h

theorem parseChars_complete {cs : List Char} (hl : Lexes cs ts) (hd : Derives .expr maxDepth ts e)
    (ho : e.operators ≤ maxOperators) : parseChars cs = .ok e := by
  have hstops {op? : Char → Option Op} : Stops op? [] := nofun
  have hstart : Lexes (Cursor.mk cs 0 0).rest (ts ++ []) := by
    rw [List.append_nil]
    exact hl
  have hreaches := hd.completes hstart (by simpa using ho) hstops
  obtain ⟨c, hsum, hend, _⟩ := level_additive.consumes hreaches hstops ho
  have hrest : c.skipBlank.rest = [] := by
    rw [Cursor.rest_skipBlank]
    exact hend.begins
  have hparse : Expr.sum (operand maxDepth) ⟨cs, 0, 0⟩ = .ok (e, c) := hsum
  rw [parseChars, hparse]
  simp only [bind, Except.bind, hrest]

/-- A text is parsed to the tree that its tokens derive, if there are not too many operators in it
and never too many signs and parentheses open. Every other text is an error. -/
theorem parse_accepts_its_grammar (text : String) :
    (∀ e, parse text = .ok e ↔ ∃ ts, Lexes text.toList ts ∧ Derives .expr maxDepth ts e ∧
      e.operators ≤ maxOperators) ∧
    ((∃ e ts, Lexes text.toList ts ∧ Derives .expr maxDepth ts e ∧ e.operators ≤ maxOperators) ∨
      ∃ fault, parse text = .error ⟨trim text, fault⟩) := by
  have hok (e : Expr) : parse text = .ok e ↔ parseChars text.toList = .ok e := by
    unfold parse
    cases parseChars text.toList <;> simp [Except.mapError]
  refine ⟨?_, ?_⟩
  · intro e
    rw [hok]
    constructor
    · exact parseChars_sound
    · rintro ⟨ts, hl, hd, ho⟩
      exact parseChars_complete hl hd ho
  · cases h : parseChars text.toList with
    | ok e =>
      obtain ⟨ts, hts⟩ := parseChars_sound h
      exact .inl ⟨e, ts, hts⟩
    | error fault =>
      right
      refine ⟨fault, ?_⟩
      rw [parse, h]
      rfl

end Parse

end Expr
end Barrage
