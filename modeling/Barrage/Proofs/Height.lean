import Barrage.Proofs.Grammar
import Barrage.Proofs.Shape

namespace Barrage

namespace Expr

/-- How many signs stand above each other at most, on a way from the root to a leaf. -/
def signs : Expr → Nat
  | .neg e => e.signs + 1
  | .binary _ l r => max l.signs r.signs
  | _ => 0

/-- How many nodes the longest way from the root to a leaf has. -/
def height : Expr → Nat
  | .neg e => e.height + 1
  | .binary _ l r => max l.height r.height + 1
  | _ => 1

variable {part : Part} {n : Nat} {ts : List Token} {e : Expr}

section Tree

theorem signs_negate (e : Expr) : (negate e).signs ≤ e.signs + 1 := by
  cases e with
  | const v => exact Nat.zero_le _
  | _ => exact Nat.le_refl _

/-- A sign is kept in the tree for no more than the sign that was open. -/
theorem Derives.signs_le (h : Derives part n ts e) : e.signs ≤ n := by
  induction h with
  | term _ ih => exact ih
  | sum _ _ _ ihl ihr => exact max_le ihl ihr
  | unary _ ih => exact ih
  | product _ _ _ ihl ihr => exact max_le ihl ihr
  | minus _ ih => exact Nat.le_trans (signs_negate _) (Nat.succ_le_succ ih)
  | plus _ ih => exact Nat.le_succ_of_le ih
  | primary _ ih => exact ih
  | group _ ih => exact Nat.le_succ_of_le ih
  | literal _ => exact Nat.zero_le _
  | name h => cases h <;> exact Nat.zero_le _

/-- A way passes each operator once at most, and no more signs than stand above each other. -/
theorem height_le (e : Expr) : e.height ≤ e.operators + e.signs + 1 := by
  induction e with
  | neg e ih =>
    simp only [height, operators, signs]
    omega
  | binary op l r ihl ihr =>
    simp only [height, operators, signs]
    omega
  | _ => exact Nat.le_add_left _ _

theorem ok_of_parse {text : String} (h : parse text = .ok e) : parseChars text.toList = .ok e := by
  unfold parse at h
  cases hp : parseChars text.toList with
  | error fault =>
    rw [hp] at h
    cases h
  | ok e' =>
    rw [hp] at h
    cases h
    rfl

end Tree

section Evaluation

/-- The value of an expression by the values of its parts. -/
def evalOver (scope : Scope) (value : Expr → Random → Float32 × Random) :
    Expr → Random → Float32 × Random
  | .neg e, r =>
    let (v, r) := value e r
    (-v, r)
  | .binary op a b, r =>
    let (x, r) := value a r
    let (y, r) := value b r
    (op.apply x y, r)
  | e, r => e.eval scope r

/-- Evaluation down to a level, from which on the values are given by `below`. -/
def evalDown (scope : Scope) (below : Expr → Random → Float32 × Random) :
    Nat → Expr → Random → Float32 × Random
  | 0 => below
  | n + 1 => evalOver scope (evalDown scope below n)

/-- No level below the height of an expression is ever asked for. -/
theorem evalDown_eq {scope : Scope} {below : Expr → Random → Float32 × Random}
    (h : e.height ≤ n) (r : Random) : evalDown scope below n e r = e.eval scope r := by
  induction n generalizing e r with
  | zero => cases e <;> simp [height] at h
  | succ n ih =>
    cases e with
    | neg e =>
      have he : e.height ≤ n := Nat.le_of_succ_le_succ h
      simp only [evalDown, evalOver, eval, ih he]
    | binary op a b =>
      have hab : max a.height b.height ≤ n := Nat.le_of_succ_le_succ h
      have ha := ih (Nat.le_trans (Nat.le_max_left _ _) hab)
      have hb := ih (Nat.le_trans (Nat.le_max_right _ _) hab)
      simp only [evalDown, evalOver, eval, ha, hb]
    | _ => rfl

end Evaluation

section Depth

/-- Parsing with a count of the signs and parentheses that are open, before and after. -/
abbrev DepthParser := Nat → Cursor → Except Fault (Expr × Cursor × Nat)

/-- One more sign or parenthesis is open. -/
def enter (depth : Nat) : Except Fault Nat :=
  if depth < maxDepth then .ok (depth + 1) else .error .tooDeep

/-- One less is open; `trap` comes of a count below zero. -/
def leave (trap : Except Fault Nat) : Nat → Except Fault Nat
  | 0 => trap
  | depth + 1 => .ok depth

/-- What stands inside a sign or a parenthesis. -/
def inside (piece : DepthParser) : DepthParser := fun depth c => do
  let depth ← enter depth
  piece depth c

def restCounted (op? : Char → Option Op) (piece : DepthParser) : Nat → Expr → DepthParser
  | 0, _, _, _ => .error .tooManyOperators
  | budget + 1, lhs, depth, c =>
    let c := c.skipBlank
    match c.rest.head?.bind op? with
    | none => .ok (lhs, c, depth)
    | some op => do
      let (rhs, c, depth) ← piece depth (c.drop 1)
      let c ← c.countOperator
      restCounted op? piece budget (.binary op lhs rhs) depth c

def chainCounted (op? : Char → Option Op) (piece : DepthParser) : DepthParser := fun depth c => do
  let (lhs, c, depth) ← piece depth c
  restCounted op? piece (maxOperators + 1) lhs depth c

def sumCounted (piece : DepthParser) : DepthParser :=
  chainCounted additive? (chainCounted multiplicative? piece)

def operandCounted (trap : Except Fault Nat) (inner : DepthParser) : DepthParser := fun depth c =>
  let c := c.skipBlank
  match c.rest with
  | [] => .error .unexpectedEnd
  | '-' :: _ => do
    let (e, c, depth) ← inside inner depth (c.drop 1)
    let depth ← leave trap depth
    .ok (negate e, c, depth)
  | '+' :: _ => do
    let (e, c, depth) ← inside inner depth (c.drop 1)
    let depth ← leave trap depth
    .ok (e, c, depth)
  | '(' :: _ => do
    let (e, c, depth) ← inside (sumCounted inner) depth (c.drop 1)
    let c := c.skipBlank
    match c.rest with
    | ')' :: _ => do
      let depth ← leave trap depth
      .ok (e, c.drop 1, depth)
    | _ => .error .unclosed
  | '$' :: _ => do
    let (e, c) ← quantity (c.drop 1)
    .ok (e, c, depth)
  | o :: _ =>
    if isNumberChar o then do
      let (e, c) ← number c
      .ok (e, c, depth)
    else .error (.unexpected o c.position)

/-- An operand is parsed by itself, one deeper inside each sign and parenthesis. -/
def CountsDepth (trap : Except Fault Nat) (parse : DepthParser) : Prop :=
  ∀ depth c, parse depth c = operandCounted trap parse depth c

/-- The count goes from `depth` to `after` with everything that is parsed, and the rest is the work
of the other parser. -/
def Counts (depth after : Nat) (counted : DepthParser) (parser : Parser) : Prop :=
  ∀ c, counted depth c = (parser c).map fun (e, c) => (e, c, after)

variable {depth budget : Nat} {counted : DepthParser} {parser : Parser} {trap : Except Fault Nat}
  {op? : Char → Option Op}

theorem Counts.rest (h : Counts depth depth counted parser) (lhs : Expr) :
    Counts depth depth (restCounted op? counted budget lhs) (chainRest op? parser budget lhs) := by
  intro c
  induction budget generalizing lhs c with
  | zero => rfl
  | succ budget ih =>
    rw [restCounted, chainRest]
    simp only
    cases c.skipBlank.rest.head?.bind op? with
    | none => rfl
    | some op =>
      simp only [h _]
      cases parser (c.skipBlank.drop 1) with
      | error fault => rfl
      | ok read =>
        simp only [Except.map, bind, Except.bind]
        cases read.2.countOperator with
        | error fault => rfl
        | ok c => exact ih _ c

theorem Counts.chain (h : Counts depth depth counted parser) :
    Counts depth depth (chainCounted op? counted) (chain op? parser) := by
  intro c
  rw [chainCounted, Expr.chain, h c]
  cases parser c with
  | error fault => rfl
  | ok read => exact h.rest read.1 read.2

theorem Counts.sum (h : Counts depth depth counted parser) :
    Counts depth depth (sumCounted counted) (sum parser) :=
  h.chain.chain

theorem Counts.inside (h : depth < maxDepth → Counts (depth + 1) (depth + 1) counted parser)
    (hfull : maxDepth ≤ depth → parser = fun _ => .error .tooDeep) :
    Counts depth (depth + 1) (inside counted) parser := by
  intro c
  by_cases hd : depth < maxDepth
  · have henter : enter depth = .ok (depth + 1) := if_pos hd
    rw [Expr.inside, henter]
    exact h hd c
  · have henter : enter depth = .error .tooDeep := if_neg hd
    rw [Expr.inside, henter, hfull (Nat.le_of_not_lt hd)]
    rfl

/-- A sign or a parenthesis that was entered is left again. -/
theorem Counts.operandOver (h : depth < maxDepth → Counts (depth + 1) (depth + 1) counted parser)
    (hfull : maxDepth ≤ depth → parser = fun _ => .error .tooDeep) :
    Counts depth depth (operandCounted trap counted) (operandOver parser) := by
  have hinner := Counts.inside h hfull
  have hsum : Counts depth (depth + 1) (Expr.inside (sumCounted counted)) (Expr.sum parser) := by
    refine .inside (fun hd => (h hd).sum) fun hd => ?_
    rw [hfull hd]
    rfl
  intro c
  unfold operandCounted Expr.operandOver
  generalize c.skipBlank = c
  simp only
  generalize c.rest = rest
  split
  · rfl
  · simp only [hinner _]
    cases parser (c.drop 1) <;> rfl
  · simp only [hinner _]
    cases parser (c.drop 1) <;> rfl
  · simp only [hsum _]
    cases Expr.sum parser (c.drop 1) with
    | error fault => rfl
    | ok read =>
      simp only [Except.map, bind, Except.bind]
      generalize read.2.skipBlank.rest = rest
      split
      · rfl
      · grind
  · cases quantity (c.drop 1) <;> rfl
  · simp only [bind, Except.bind]
    split
    · cases number c <;> rfl
    · rfl

/-- Where one more may be open, the next deeper operand counts for itself. -/
theorem counts_operand (h : depth < maxDepth →
      Counts (depth + 1) (depth + 1) counted (operand (maxDepth - (depth + 1)))) :
    Counts depth depth (operandCounted trap counted) (operand (maxDepth - depth)) := by
  by_cases hd : depth < maxDepth
  · rw [show maxDepth - depth = maxDepth - (depth + 1) + 1 by omega, operand]
    exact .operandOver h fun hfull => absurd hd (Nat.not_lt_of_le hfull)
  · rw [show maxDepth - depth = 0 by omega, operand]
    exact .operandOver (fun hlt => absurd hlt hd) fun _ => rfl

/-- The room for more signs and parentheses decreases, so there is one way to count. -/
theorem CountsDepth.counts (h : CountsDepth trap counted) (depth : Nat) :
    Counts depth depth counted (operand (maxDepth - depth)) := by
  induction hroom : maxDepth - depth using Nat.strong_induction_on generalizing depth with
  | _ room ih =>
    rw [← hroom]
    intro c
    rw [h]
    exact counts_operand (fun hd => ih _ (by omega) (depth + 1) rfl) c

theorem countsDepth_operand (trap : Except Fault Nat) :
    CountsDepth trap fun depth c =>
      (operand (maxDepth - depth) c).map fun (e, c) => (e, c, depth) :=
  fun _ c => (counts_operand (fun _ _ => rfl) c).symm

end Depth

/-- There are few operators in the expression and few signs above each other, so that its tree is
low and to evaluate it takes no more calls within each other than that. -/
structure Low (e : Expr) : Prop where
  operators : e.operators ≤ maxOperators
  signs : e.signs ≤ maxDepth
  height : e.height ≤ maxOperators + maxDepth + 1
  calls : ∀ scope below, evalDown scope below (maxOperators + maxDepth + 1) e = e.eval scope

theorem low_of_parse {text : String} (h : parse text = .ok e) : e.Low := by
  obtain ⟨ts, _, hd, ho⟩ := parseChars_sound (ok_of_parse h)
  have hs := hd.signs_le
  have hh : e.height ≤ maxOperators + maxDepth + 1 := by
    have := e.height_le
    omega
  exact ⟨ho, hs, hh, fun scope below => funext fun r => evalDown_eq hh r⟩

end Expr

namespace Pattern

variable {p : Pattern} {events : List Markup.Event} {id : NodeId} {e : Expr}

/-- Whatever value an element of a document has was parsed from its text. -/
theorem Outlines.parsed (h : p.Outlines events) (he : (p.node id).expr = some e) :
    ∃ text, Expr.parse text = .ok e := by
  have hmem : p.node id ∈ p.nodes.toList := by
    rw [node, node?] at he ⊢
    cases hn : p.nodes[id.index]? with
    | none =>
      rw [hn] at he
      cases he
    | some n => exact List.mem_of_getElem? (Array.getElem?_toList ▸ hn)
  rw [h.nodes, List.mem_map] at hmem
  obtain ⟨x, _, hx⟩ := hmem
  rw [← hx] at he
  simp only [Markup.Entry.node, Markup.valueOf] at he
  split at he
  · exact ⟨_, (value?_eq_some he).2⟩
  · cases he

theorem low_of_document {name : String} {bs : Markup.Bytes} {notices : Array Notice}
    (h : ofDocument name bs = (.ok p, notices)) (he : (p.node id).expr = some e) : e.Low := by
  obtain ⟨hbuilt, -⟩ := ofDocument_ok h (E := fun _ => True) trivial fun _ _ _ _ => trivial
  obtain ⟨d, hread, -, hrooted, -, rfl, -⟩ := ofDocument_eq_ok.1 h
  have ho := ((Draft.traces_ofName name).reads hread).outlines hrooted hbuilt
  obtain ⟨text, hp⟩ := ho.parsed he
  exact Expr.low_of_parse hp

end Pattern

namespace Expr

/-- What is parsed from a text is low, and so is every value of a document. A parser that counts
the open signs and parentheses has the same count after each operand, product and sum as before it,
and never counts below zero: it parses what the parser with its room does, whatever would come of
such a count. -/
theorem parsed_expressions_are_low :
    (∀ text e, parse text = .ok e → e.Low) ∧
    (∀ name bs p notices, Pattern.ofDocument name bs = (.ok p, notices) →
      ∀ id e, (p.node id).expr = some e → e.Low) ∧
    ∀ trap, (∃ counted, CountsDepth trap counted) ∧
      ∀ counted, CountsDepth trap counted → ∀ depth,
        Counts depth depth counted (operand (maxDepth - depth)) ∧
        Counts depth depth (chainCounted multiplicative? counted)
          (chain multiplicative? (operand (maxDepth - depth))) ∧
        Counts depth depth (sumCounted counted) (sum (operand (maxDepth - depth))) := by
  refine ⟨fun text e => low_of_parse, ?_, fun trap => ⟨⟨_, countsDepth_operand trap⟩, ?_⟩⟩
  · intro name bs p notices h id e he
    exact Pattern.low_of_document h he
  · intro counted h depth
    have hc := h.counts depth
    exact ⟨hc, hc.chain, hc.sum⟩

/-- Two signs are left in the tree, one is part of a literal. The count of both is back at zero. -/
theorem signed_product_is_low :
    (∃ e, parse "--$rand * (2 + -1)" = .ok e ∧ e.operators = 2 ∧ e.signs = 2 ∧ e.height = 4 ∧
      e.Low) ∧
    (∃ p notices e, Pattern.ofDocument "fan" Pattern.fanText = (.ok p, notices) ∧
      (p.node ⟨5⟩).expr = some e ∧ e.height = 2 ∧ e.Low) ∧
    ∃ counted, CountsDepth (.ok UInt64.size) counted ∧
      ∃ e c, sumCounted counted 0 ⟨"--$rand * (2 + -1)".toList, 0, 0⟩ = .ok (e, c, 0) := by
  obtain ⟨hparse, hdocument, hdepth⟩ := parsed_expressions_are_low
  refine ⟨?_, ?_, ?_⟩
  · have hshape : (parse "--$rand * (2 + -1)").toOption.map
        (fun e => (e.operators, e.signs, e.height)) = some (2, 2, 4) := by decide +kernel
    cases h : parse "--$rand * (2 + -1)" with
    | error cause =>
      rw [h] at hshape
      cases hshape
    | ok e =>
      rw [h] at hshape
      simp only [Except.toOption, Option.map_some, Option.some.injEq, Prod.mk.injEq] at hshape
      obtain ⟨ho, hs, hh⟩ := hshape
      exact ⟨e, rfl, ho, hs, hh, hparse _ e h⟩
  · have hvalue : (Pattern.ofDocument "fan" Pattern.fanText).1.toOption.bind
        (fun p => (p.node ⟨5⟩).expr.map height) = some 2 := by decide +kernel
    cases h : Pattern.ofDocument "fan" Pattern.fanText with
    | mk read notices =>
      rw [h] at hvalue
      cases read with
      | error cause => cases hvalue
      | ok p =>
        obtain ⟨e, he, hh⟩ := Option.map_eq_some_iff.1 hvalue
        exact ⟨p, notices, e, rfl, he, hh, hdocument _ _ p notices h _ e he⟩
  · obtain ⟨⟨counted, hc⟩, hsame⟩ := hdepth (.ok UInt64.size)
    have hsum := (hsame counted hc 0).2.2 ⟨"--$rand * (2 + -1)".toList, 0, 0⟩
    have hok : (Expr.sum (operand (maxDepth - 0)) ⟨"--$rand * (2 + -1)".toList, 0, 0⟩).isOk =
        true := by decide +kernel
    cases h : Expr.sum (operand (maxDepth - 0)) ⟨"--$rand * (2 + -1)".toList, 0, 0⟩ with
    | error fault =>
      rw [h] at hok
      cases hok
    | ok read =>
      rw [h] at hsum
      exact ⟨counted, hc, read.1, read.2, hsum⟩

end Expr
end Barrage
