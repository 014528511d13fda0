import Barrage.Json.Reader
import Barrage.Json.Writer
import Barrage.Proofs.Lexing

namespace Barrage
open Barrage.Expr (Ends takeWhile_run dropWhile_run)

/-- A number that can be written and read again: there are no superfluous zeros before it, and there
are digits wherever there must be some. -/
structure Numeral.IsWritten (n : Numeral) : Prop where
  digits : ∀ c ∈ n.whole ++ n.fraction, c.isDigit = true
  whole : n.whole ≠ []
  zero : ∀ cs, n.whole = '0' :: cs → cs = []
  exponent : ∀ e ∈ n.exponent, e.2 ≠ [] ∧ ∀ c ∈ e.2, c.isDigit = true

namespace Json

variable {cs ds rest before w : List Char} {c : Char} {n : Numeral} {fuel : Nat}

/-- What may follow a value: a comma, the end of a line, or nothing. -/
def Stops (cs : List Char) : Prop := ∀ c ∈ cs.head?, c = ',' ∨ c = '\n'

theorem stops_nil : Stops [] := by
  rintro c ⟨⟩

theorem stops_comma (cs : List Char) : Stops (',' :: cs) := by
  rintro c ⟨⟩
  exact .inl rfl

theorem stops_line (cs : List Char) : Stops ('\n' :: cs) := by
  rintro c ⟨⟩
  exact .inr rfl

theorem Stops.ends (h : Stops cs) {p : Char → Bool} (hcomma : p ',' = false)
    (hline : p '\n' = false) : Ends p cs := by
  intro c hc
  rcases h c hc with rfl | rfl
  · exact hcomma
  · exact hline

section Numbers

theorem digits?_run (hd : ∀ c ∈ ds, c.isDigit = true) (hn : ds ≠ [])
    (he : Ends Char.isDigit rest) : digits? (ds ++ rest) = some (ds, rest) := by
  unfold digits?
  rw [takeWhile_run hd he, dropWhile_run hd he]
  split
  · exact absurd rfl hn
  · rfl

theorem whole?_run (hd : ∀ c ∈ ds, c.isDigit = true) (hn : ds ≠ [])
    (hz : ∀ cs, ds = '0' :: cs → cs = []) (he : Ends Char.isDigit rest) :
    whole? (ds ++ rest) = some (ds, rest) := by
  have hdigits := digits?_run hd hn he
  obtain ⟨d, ds, rfl⟩ := List.exists_cons_of_ne_nil hn
  by_cases hzero : d = '0'
  · subst hzero
    cases hz ds rfl
    cases rest with
    | nil => exact hdigits
    | cons c rest =>
      have hc := he c rfl
      simp only [List.cons_append, List.nil_append, whole?, hc, Bool.false_eq_true, if_false]
  · rw [whole?.eq_2]
    · exact hdigits
    · intro c cs heq
      exact hzero (List.cons.inj heq).1

theorem fraction?_run (hd : ∀ c ∈ ds, c.isDigit = true) (he : Ends Char.isDigit rest)
    (hp : Ends (· == '.') rest) :
    fraction? ((if ds.isEmpty then [] else '.' :: ds) ++ rest) = some (ds, rest) := by
  cases ds with
  | nil =>
    rw [List.isEmpty_nil, if_pos rfl, List.nil_append, fraction?.eq_2]
    rintro cs rfl
    exact absurd (hp '.' rfl) (by decide)
  | cons d ds => exact digits?_run hd (List.cons_ne_nil d ds) he

/-- How an exponent is written. -/
def exponentText : Option (Bool × List Char) → List Char
  | some (negative, ds) => 'e' :: (if negative then '-' else '+') :: ds
  | none => []

theorem exponent?_run {e : Option (Bool × List Char)}
    (hd : ∀ x ∈ e, x.2 ≠ [] ∧ ∀ c ∈ x.2, c.isDigit = true) (hs : Stops rest) :
    exponent? (exponentText e ++ rest) = some (e, rest) := by
  cases e with
  | none =>
    cases rest with
    | nil => rfl
    | cons c rest =>
      have hc : (c == 'e' || c == 'E') = false := by
        rcases hs c rfl with rfl | rfl
        · rfl
        · rfl
      simp only [exponentText, List.nil_append, exponent?, hc, Bool.false_eq_true, if_false]
  | some x =>
    obtain ⟨negative, ds⟩ := x
    obtain ⟨hn, hds⟩ := hd _ rfl
    have hdigits := digits?_run hds hn (hs.ends rfl rfl)
    cases negative with
    | true => exact congrArg (· >>= fun x => some (some (true, x.1), x.2)) hdigits
    | false => exact congrArg (· >>= fun x => some (some (false, x.1), x.2)) hdigits

theorem toList_render (n : Numeral) : n.render.toList =
    (if n.negative then ['-'] else []) ++ (n.whole ++
      ((if n.fraction.isEmpty then [] else '.' :: n.fraction) ++ exponentText n.exponent)) := by
  obtain ⟨negative, whole, fraction, exponent⟩ := n
  have hpoint : ("." ++ String.ofList fraction).toList = '.' :: fraction := by
    simp only [String.toList_append, String.toList_ofList]
    rfl
  have hmantissa (last : String) : ((if negative then "-" else "") ++ String.ofList whole ++
      (if fraction.isEmpty then "" else "." ++ String.ofList fraction) ++ last).toList =
      (if negative then ['-'] else []) ++ (whole ++
        ((if fraction.isEmpty then [] else '.' :: fraction) ++ last.toList)) := by
    simp only [String.toList_append, String.toList_ofList, List.append_assoc,
      apply_ite String.toList, hpoint]
    rfl
  cases exponent with
  | none => exact hmantissa ""
  | some x =>
    obtain ⟨minus, ds⟩ := x
    have hexponent : ("e" ++ (if minus then "-" else "+") ++ String.ofList ds).toList =
        exponentText (some (minus, ds)) := by
      simp only [String.toList_append, String.toList_ofList, apply_ite String.toList]
      cases minus with
      | true => rfl
      | false => rfl
    rw [← hexponent]
    exact hmantissa _

/-- A number behind its sign. -/
def unsigned? (negative : Bool) (cs : List Char) : Option (Numeral × List Char) := do
  let (whole, cs) ← whole? cs
  let (fraction, cs) ← fraction? cs
  let (exponent, cs) ← exponent? cs
  some (⟨negative, whole, fraction, exponent⟩, cs)

/-- Whether there is a minus, and what follows it. -/
def signed : List Char → Bool × List Char
  | '-' :: cs => (true, cs)
  | cs => (false, cs)

theorem numeral?_eq (cs : List Char) : numeral? cs = unsigned? (signed cs).1 (signed cs).2 := rfl

theorem unsigned?_run (h : n.IsWritten) (hs : Stops rest) :
    unsigned? n.negative (n.whole ++
      ((if n.fraction.isEmpty then [] else '.' :: n.fraction) ++
        (exponentText n.exponent ++ rest))) = some (n, rest) := by
  have hexponent := exponent?_run h.exponent hs
  have hends {p : Char → Bool} (hcomma : p ',' = false) (hline : p '\n' = false)
      (he : p 'e' = false) : Ends p (exponentText n.exponent ++ rest) := by
    cases n.exponent with
    | none => exact hs.ends hcomma hline
    | some x =>
      rintro c ⟨⟩
      exact he
  have hfraction := fraction?_run (fun c hc => h.digits c (List.mem_append_right _ hc))
    (hends rfl rfl rfl) (hends rfl rfl rfl)
  have hpoint : Ends Char.isDigit ((if n.fraction.isEmpty then [] else '.' :: n.fraction) ++
      (exponentText n.exponent ++ rest)) := by
    cases n.fraction with
    | nil => exact hends rfl rfl rfl
    | cons d ds =>
      rintro c ⟨⟩
      rfl
  have hwhole := whole?_run (fun c hc => h.digits c (List.mem_append_left _ hc)) h.whole h.zero
    hpoint
  rw [unsigned?, hwhole]
  simp only [Option.bind_eq_bind, Option.bind_some, hfraction, hexponent]

theorem numeral?_render (h : n.IsWritten) (hs : Stops rest) :
    numeral? (n.render.toList ++ rest) = some (n, rest) := by
  have hrun := unsigned?_run h hs
  have hsigned : signed (n.render.toList ++ rest) = (n.negative, n.whole ++
      ((if n.fraction.isEmpty then [] else '.' :: n.fraction) ++
        (exponentText n.exponent ++ rest))) := by
    rw [toList_render]
    simp only [List.append_assoc]
    cases n.negative with
    | true => rfl
    | false =>
      rw [if_neg Bool.false_ne_true, List.nil_append]
      apply signed.eq_2
      intro cs heq
      obtain ⟨d, ds, hwhole⟩ := List.exists_cons_of_ne_nil h.whole
      rw [hwhole, List.cons_append] at heq
      have hd := h.digits d (List.mem_append_left _ (hwhole ▸ List.mem_cons_self))
      rw [(List.cons.inj heq).1] at hd
      exact absurd hd (by decide)
  rw [numeral?_eq, hsigned]
  exact hrun

end Numbers

section Strings

/-- A character as it is read from how it is written. -/
structure Escapes (c : Char) (part : StringPart) : Prop where
  read : ∀ cs, stringParts? (escapeChar c ++ cs) =
    (stringParts? cs).map fun x => (part :: x.1, x.2)
  join : ∀ parts, joinParts? (part :: parts) = (joinParts? parts).map (c :: ·)

theorem hex_of_control : ∀ n < 32, Text.numeral? 16
    ['0', '0', Nat.digitChar (n / 16), Nat.digitChar (n % 16)] = some n := by
  decide

theorem joinParts?_unit {n : Nat} (hn : n < 32) (parts : List StringPart) :
    joinParts? (.unit n :: parts) = (joinParts? parts).map (.ofNat n :: ·) := by
  have hhigh : isHighSurrogate n = false := by
    simp only [isHighSurrogate, Bool.and_eq_false_iff, decide_eq_false_iff_not]
    omega
  have hlow : isLowSurrogate n = false := by
    simp only [isLowSurrogate, Bool.and_eq_false_iff, decide_eq_false_iff_not]
    omega
  cases parts with
  | nil => simp only [joinParts?, hhigh, hlow, Bool.or_false, Bool.false_eq_true, if_false]
  | cons part parts =>
    cases part with
    | char c => simp only [joinParts?, hhigh, hlow, Bool.or_false, Bool.false_eq_true, if_false]
    | unit low =>
      rw [joinParts?.eq_3, hhigh, hlow, if_neg Bool.false_ne_true, if_neg Bool.false_ne_true]

theorem bind_some_eq_map (part : StringPart) (x : Option (List StringPart × List Char)) :
    (x >>= fun x => some (part :: x.1, x.2)) = x.map fun x => (part :: x.1, x.2) := by
  cases x with
  | none => rfl
  | some x => rfl

theorem escapes_named {e : Char} (hc : escapeChar c = ['\\', e]) (he : escape? e = some c) :
    Escapes c (.char c) where
  read cs := by
    rw [hc, List.cons_append, List.singleton_append, stringParts?.eq_4]
    · rw [he]
      exact bind_some_eq_map _ _
    · rintro _ _ _ _ _ rfl _
      cases he
  join parts := rfl

/-- The characters that have an escape of their own. -/
def named : List Char := ['\x22', '\\', '\x08', '\x0c', '\n', '\r', '\t']

theorem exists_escape (c : Char) : ∃ part, Escapes c part := by
  -- Other control characters are written by number, all other characters stand for themselves.
  by_cases hnamed : c ∈ named
  · have hescape : ∀ c ∈ named, ∃ e, escapeChar c = ['\\', e] ∧ escape? e = some c := by
      simp only [named, List.forall_mem_cons]
      exact ⟨⟨_, rfl, rfl⟩, ⟨_, rfl, rfl⟩, ⟨_, rfl, rfl⟩, ⟨_, rfl, rfl⟩, ⟨_, rfl, rfl⟩,
        ⟨_, rfl, rfl⟩, ⟨_, rfl, rfl⟩, List.forall_mem_nil _⟩
    obtain ⟨e, hc, he⟩ := hescape c hnamed
    exact ⟨_, escapes_named hc he⟩
  · simp only [named, List.mem_cons, List.not_mem_nil, or_false, not_or] at hnamed
    obtain ⟨hquote, hback, h₁, h₂, h₃, h₄, h₅⟩ := hnamed
    have hescape := escapeChar.eq_8 c hquote hback h₁ h₂ h₃ h₄ h₅
    by_cases hcontrol : c < ' '
    · rw [if_pos hcontrol] at hescape
      have hn : c.toNat < 32 := hcontrol
      refine ⟨.unit c.toNat, ?_, ?_⟩
      · intro cs
        rw [hescape]
        simp only [List.cons_append, List.nil_append]
        rw [stringParts?.eq_3, hex_of_control _ hn]
        exact bind_some_eq_map _ _
      · intro parts
        rw [joinParts?_unit hn, Char.ofNat_toNat]
    · rw [if_neg hcontrol] at hescape
      have hplain : (decide (c < ' ') || c == '\\') = false := by
        rw [decide_eq_false hcontrol, Bool.false_or, beq_eq_false_iff_ne]
        exact hback
      refine ⟨.char c, ?_, fun _ => rfl⟩
      intro cs
      rw [hescape, List.singleton_append, stringParts?.eq_5, hplain, if_neg Bool.false_ne_true]
      · exact bind_some_eq_map _ _
      · exact hquote
      · exact fun _ _ _ _ _ heq => absurd heq hback
      · exact fun _ _ heq => absurd heq hback

theorem exists_parts (text rest : List Char) : ∃ parts,
    stringParts? (text.flatMap escapeChar ++ '\x22' :: rest) = some (parts, rest) ∧
      joinParts? parts = some text := by
  induction text with
  | nil => exact ⟨[], rfl, rfl⟩
  | cons c text ih =>
    obtain ⟨parts, hread, hjoin⟩ := ih
    obtain ⟨part, hpart⟩ := exists_escape c
    refine ⟨part :: parts, ?_, ?_⟩
    · rw [List.flatMap_cons, List.append_assoc, hpart.read, hread]
      rfl
    · rw [hpart.join, hjoin]
      rfl

theorem toList_quote (text : String) :
    (quote text).toList = '\x22' :: (text.toList.flatMap escapeChar ++ ['\x22']) := by
  simp only [quote, String.toList_append, String.toList_ofList]
  rfl

theorem string?_quote (text : String) (rest : List Char) :
    string? (text.toList.flatMap escapeChar ++ '\x22' :: rest) = some (some text, rest) := by
  obtain ⟨parts, hread, hjoin⟩ := exists_parts text.toList rest
  simp only [string?, hread, Option.map_some, hjoin, String.ofList_toList]

end Strings

end Json
end Barrage
