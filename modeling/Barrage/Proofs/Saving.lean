import Barrage.Proofs.JsonText
import Barrage.Settings.Codec

namespace Barrage

namespace Numeral

theorem eq_zero_of_toDigits {n : Nat} {cs : List Char} (h : Nat.toDigits 10 n = '0' :: cs) :
    n = 0 := by
  induction n using Nat.strong_induction_on generalizing cs with
  | _ n ih =>
    by_cases hn : n < 10
    · have hdigit : ∀ n < 10, Nat.digitChar n = '0' → n = 0 := by decide
      rw [Nat.toDigits_of_lt_base hn] at h
      exact hdigit n hn (List.cons.inj h).1
    · have hten : 10 ≤ n := Nat.le_of_not_lt hn
      obtain ⟨d, ds, hd⟩ := List.exists_cons_of_ne_nil (Nat.toDigits_ne_nil (n := n / 10) (b := 10))
      rw [Nat.toDigits_of_base_le (by decide) hten, hd, List.cons_append] at h
      have hzero := ih (n / 10) (by omega) (hd.trans (congrArg (· :: ds) (List.cons.inj h).1))
      omega

theorem isDigit_of_toDigits {n : Nat} {c : Char} (h : c ∈ Nat.toDigits 10 n) :
    c.isDigit = true :=
  Nat.isDigit_of_mem_toDigits (by decide) (by decide) h

theorem isDigit_of_zeros {n : Nat} {c : Char} (h : c ∈ List.replicate n '0') :
    c.isDigit = true := by
  rw [List.eq_of_mem_replicate h]
  rfl

theorem isWritten_plain {negative : Bool} {whole fraction : List Char}
    (hwhole : ∀ c ∈ whole, c.isDigit = true) (hfraction : ∀ c ∈ fraction, c.isDigit = true)
    (hn : whole ≠ []) (hz : ∀ cs, whole = '0' :: cs → cs = []) :
    (⟨negative, whole, fraction, none⟩ : Numeral).IsWritten where
  digits := List.forall_mem_append.2 ⟨hwhole, hfraction⟩
  whole := hn
  zero := hz
  exponent e h := by cases h

theorem eq_nil_of_zero {cs : List Char} (h : ['0'] = '0' :: cs) : cs = [] :=
  (List.cons.inj h).2.symm

theorem isWritten_ofNat (n : Nat) : (ofNat n).IsWritten := by
  apply isWritten_plain (fun c => isDigit_of_toDigits) (List.forall_mem_nil _) Nat.toDigits_ne_nil
  intro cs h
  have hzero := eq_zero_of_toDigits h
  subst hzero
  exact eq_nil_of_zero h

/-- A decimal is written without superfluous zeros, unless it is a zero with an exponent. -/
theorem isWritten_ofDecimal (negative : Bool) {d : Decimal} (hd : d.digits = 0 → d.exponent = 0) :
    (ofDecimal negative d).IsWritten := by
  obtain ⟨m, e⟩ := d
  by_cases hm : m = 0
  · subst hm
    cases hd rfl
    exact isWritten_plain (fun _ => isDigit_of_zeros (n := 1)) (fun _ => isDigit_of_zeros (n := 1))
      (List.cons_ne_nil _ _) (fun _ => eq_nil_of_zero)
  · -- Here no zero leads the digits, whichever way the point cuts them.
    obtain ⟨c, cs, hcs⟩ := List.exists_cons_of_ne_nil (Nat.toDigits_ne_nil (n := m) (b := 10))
    have hdigits : ∀ x ∈ c :: cs, x.isDigit = true := fun x hx => isDigit_of_toDigits (hcs ▸ hx)
    have hlead {ds rest : List Char} (h : c :: rest = '0' :: ds) : ds = [] := by
      cases h
      exact absurd (eq_zero_of_toDigits hcs) hm
    rw [ofDecimal, hcs]
    generalize ((c :: cs).length : Int) + e = point
    dsimp only
    split
    · next hpoint =>
      split
      · apply isWritten_plain _ (fun _ => isDigit_of_zeros (n := 1)) (List.cons_ne_nil _ _)
          (fun _ => hlead)
        exact List.forall_mem_append.2 ⟨hdigits, fun _ => isDigit_of_zeros⟩
      · obtain ⟨k, hk⟩ := Nat.exists_eq_add_of_le' (show 1 ≤ point.toNat by omega)
        rw [hk, List.take_succ_cons]
        apply isWritten_plain _ _ (List.cons_ne_nil _ _) (fun _ => hlead)
        · exact fun x hx => hdigits x (List.mem_of_mem_take (i := k + 1) hx)
        · exact fun x hx => hdigits x (List.mem_of_mem_drop hx)
    · split
      · apply isWritten_plain (fun _ => isDigit_of_zeros (n := 1)) _ (List.cons_ne_nil _ _)
          (fun _ => eq_nil_of_zero)
        exact List.forall_mem_append.2 ⟨fun _ => isDigit_of_zeros, hdigits⟩
      · refine ⟨?_, List.cons_ne_nil _ _, fun _ => hlead, ?_⟩
        · exact hdigits
        · rintro _ ⟨⟩
          exact ⟨Nat.toDigits_ne_nil, fun c => isDigit_of_toDigits⟩

theorem toUInt64?_ofNat (n : UInt64) : (ofNat n.toNat).toUInt64? = some n := by
  have hvalue : Text.digitsValue (ofNat n.toNat).whole = n.toNat := Nat.ofDigitChars_ten_toDigits
  have hfits : n.toNat < UInt64.size := n.toNat_lt
  have hinteger : (ofNat n.toNat).isInteger = true := rfl
  have hsign : (ofNat n.toNat).negative = false := rfl
  simp only [toUInt64?, hvalue, hfits, hinteger, hsign, Bool.not_false, decide_true, Bool.and_true,
    if_true, UInt64.ofNat_toNat]

end Numeral

namespace Binary32

theorem Interval.contains_zero {i : Interval} (hlow : 0 < i.low) (k : Int) :
    i.contains k 0 = false := by
  have hfactor : 0 < i.valueFactor k := by
    rw [valueFactor, Nat.shiftLeft_eq]
    exact Nat.mul_pos (Nat.pow_pos (by decide)) (Nat.two_pow_pos _)
  have hpos : 0 < i.low * i.valueFactor k := Nat.mul_pos hlow hfactor
  simp only [contains, Nat.zero_mul]
  split
  · rw [decide_eq_false (by omega), Bool.false_and]
  · rw [decide_eq_false (by omega), Bool.false_and]

theorem Interval.contains_of_nearest? {i : Interval} {k : Int} {n : Nat}
    (h : i.nearest? k = some n) : i.contains k n = true := by
  simp only [nearest?] at h
  split at h
  · next hbelow habove =>
    cases h
    split
    · exact hbelow
    · exact habove
  · next hbelow _ =>
    cases h
    exact hbelow
  · next _ habove =>
    cases h
    exact habove
  · cases h

/-- The shortest decimal of a number other than zero is no zero with an exponent. -/
theorem Interval.shortest_eq_zero {i : Interval} (hlow : 0 < i.low)
    (h : i.shortest.digits = 0) : i.shortest.exponent = 0 := by
  unfold shortest at h ⊢
  generalize hfound : ((List.range 100).findSome? fun (n : Nat) =>
    let k : Int := 39 - n
    (i.nearest? k).map (⟨·, k⟩) : Option Decimal) = found at h ⊢
  cases found with
  | none => rfl
  | some d =>
    obtain ⟨n, _, hn⟩ := List.exists_of_findSome?_eq_some hfound
    obtain ⟨m, hm, rfl⟩ := Option.map_eq_some_iff.1 hn
    have hzero : m = 0 := h
    have hcontains := contains_of_nearest? hm
    rw [hzero, contains_zero hlow] at hcontains
    cases hcontains

theorem Interval.low_around_pos {m : Nat} (hm : 0 < m) (e : Int) : 0 < (around m e).low := by
  simp only [around]
  split <;> omega

/-- If the number is finite, what is written for it is read as the same number. -/
def ReadsBack (x : Float32) : Prop :=
  x.isFinite = true → (Json.ofFloat32 x).toFloat32? = some x

instance : DecidablePred ReadsBack :=
  fun x => inferInstanceAs (Decidable (x.isFinite = true → (Json.ofFloat32 x).toFloat32? = some x))

end Binary32

namespace Json
open Binary32 (ReadsBack)

variable {x : Float32}

theorem ofFloat32_eq_null (h : x.isFinite = false) : ofFloat32 x = .null := by
  have hunpack : x.toModel.unpack.isFinite = false := h
  unfold ofFloat32 Binary32.shortest?
  cases hx : x.toModel.unpack with
  | infinity => rfl
  | notANumber => rfl
  | zero =>
    rw [hx] at hunpack
    cases hunpack
  | finite =>
    rw [hx] at hunpack
    cases hunpack

theorem isWritten_ofFloat32 (x : Float32) : (ofFloat32 x).IsWritten := by
  unfold ofFloat32 Binary32.shortest?
  cases x.toModel.unpack with
  | infinity => exact .null
  | notANumber => exact .null
  | zero => exact .number (Numeral.isWritten_ofDecimal _ fun _ => rfl)
  | finite sign m e hm =>
    exact .number (Numeral.isWritten_ofDecimal _
      (Binary32.Interval.shortest_eq_zero (Binary32.Interval.low_around_pos hm e)))

theorem toFloat32?_ofFloat32 (h : ReadsBack x) :
    (ofFloat32 x).toFloat32? = if x.isFinite then some x else none := by
  split
  · next hx => exact h hx
  · next hx =>
    rw [ofFloat32_eq_null (Bool.eq_false_iff.2 hx)]
    rfl

theorem isWritten_getD {α : Type} {encode : α → Json} (h : ∀ a, (encode a).IsWritten)
    (a : Option α) : ((a.map encode).getD .null).IsWritten := by
  cases a with
  | none => exact .null
  | some a => exact h a

theorem bind_both {α β γ : Type} (p q : Bool) (a : α) (b : β) (f : α → β → γ) :
    ((if p then some a else none).bind fun a =>
      (if q then some b else none).bind fun b => some (f a b)) =
      if p && q then some (f a b) else none := by
  cases p with
  | false => rfl
  | true =>
    cases q with
    | false => rfl
    | true => rfl

/-- A number that may be absent becomes so if it is not finite. -/
theorem toOption?_ofFloat32 {r : Option Float32} (h : ∀ x ∈ r, ReadsBack x) :
    toOption? toFloat32? ((r.map ofFloat32).getD .null) = some (r.filter Float32.isFinite) := by
  cases r with
  | none => rfl
  | some x =>
    have hread := toFloat32?_ofFloat32 (h x rfl)
    rw [Option.map_some, Option.getD_some, Option.filter_some]
    by_cases hx : x.isFinite = true
    · rw [if_pos hx] at hread ⊢
      cases hv : ofFloat32 x with
      | number n =>
        rw [hv] at hread
        exact congrArg (Option.map some) hread
      | _ =>
        rw [hv] at hread
        cases hread
    · rw [if_neg hx, ofFloat32_eq_null (Bool.eq_false_iff.2 hx)]
      rfl

end Json

namespace Point
open Binary32 (ReadsBack)

def coordinates (p : Point) : List Float32 := [p.x, p.y]

theorem isWritten_toJson (p : Point) : p.toJson.IsWritten := by
  apply Json.IsWritten.array
  simp only [List.forall_mem_cons]
  exact ⟨Json.isWritten_ofFloat32 _, Json.isWritten_ofFloat32 _, List.forall_mem_nil _⟩

theorem ofJson?_toJson {p : Point} (h : ∀ x ∈ p.coordinates, ReadsBack x) :
    ofJson? p.toJson = if p.coordinates.all Float32.isFinite then some p else none := by
  obtain ⟨hx, hy, _⟩ := by simpa only [coordinates, List.forall_mem_cons] using h
  have hdecode : ofJson? p.toJson = (Json.ofFloat32 p.x).toFloat32?.bind fun x =>
    (Json.ofFloat32 p.y).toFloat32?.bind fun y => some ⟨x, y⟩ := rfl
  rw [hdecode, Json.toFloat32?_ofFloat32 hx, Json.toFloat32?_ofFloat32 hy]
  rw [Json.bind_both, coordinates, List.all_cons, List.all_cons, List.all_nil, Bool.and_true]

end Point

namespace Bounds
open Binary32 (ReadsBack)

def coordinates (b : Bounds) : List Float32 := b.min.coordinates ++ b.max.coordinates

theorem isWritten_toJson (b : Bounds) : b.toJson.IsWritten := by
  apply Json.IsWritten.object
  · simp
  · simp only [List.forall_mem_cons]
    exact ⟨b.min.isWritten_toJson, b.max.isWritten_toJson, List.forall_mem_nil _⟩

theorem ofJson?_toJson {b : Bounds} (h : ∀ x ∈ b.coordinates, ReadsBack x) :
    ofJson? b.toJson = if b.coordinates.all Float32.isFinite then some b else none := by
  obtain ⟨hmin, hmax⟩ := List.forall_mem_append.1 h
  have hdecode : ofJson? b.toJson = (Point.ofJson? b.min.toJson).bind fun min =>
    (Point.ofJson? b.max.toJson).bind fun max => some ⟨min, max⟩ := rfl
  rw [hdecode, Point.ofJson?_toJson hmin, Point.ofJson?_toJson hmax, Json.bind_both, coordinates,
    List.all_append]

end Bounds

theorem Difficulty.ofName?_name (d : Difficulty) : ofName? d.name = some d := by
  cases d <;> rfl

namespace Settings
open Binary32 (ReadsBack)

/-- The numbers that settings cannot do without. -/
def required (s : Settings) : List Float32 :=
  s.cullMargin :: s.playfield.toList.flatMap Bounds.coordinates

/-- All numbers of the settings that are not whole. -/
def floats (s : Settings) : List Float32 := s.rank.toList ++ s.required

theorem isWritten_toJson (s : Settings) : s.toJson.IsWritten := by
  apply Json.IsWritten.object
  · simp
  · simp only [List.forall_mem_cons]
    exact ⟨.string _, Json.isWritten_getD Json.isWritten_ofFloat32 _,
      Json.isWritten_getD (fun n => .number (Numeral.isWritten_ofNat (UInt64.toNat n))) _,
      .number (Numeral.isWritten_ofNat _), Json.isWritten_getD Bounds.isWritten_toJson _,
      Json.isWritten_ofFloat32 _, .string _, List.forall_mem_nil _⟩

theorem toOption?_maxBullets (s : Settings) :
    Json.toOption? Json.toUInt64? ((s.maxBullets.map fun n => Json.ofNat n.toNat).getD .null) =
      some s.maxBullets := by
  cases s.maxBullets with
  | none => rfl
  | some n => exact congrArg (Option.map some) (Numeral.toUInt64?_ofNat n)

theorem toOption?_playfield {s : Settings}
    (h : ∀ x ∈ s.playfield.toList.flatMap Bounds.coordinates, ReadsBack x) :
    Json.toOption? Bounds.ofJson? ((s.playfield.map Bounds.toJson).getD .null) =
      if (s.playfield.toList.flatMap Bounds.coordinates).all Float32.isFinite then
        some s.playfield
      else none := by
  cases hp : s.playfield with
  | none => rfl
  | some b =>
    rw [hp, Option.toList_some, List.flatMap_singleton] at h
    rw [Option.toList_some, List.flatMap_singleton]
    have hread := congrArg (Option.map some) (Bounds.ofJson?_toJson h)
    rw [apply_ite (Option.map some)] at hread
    exact hread

/-- What is read from settings as they are written. -/
theorem ofJson?_toJson {s : Settings} (h : ∀ x ∈ s.floats, ReadsBack x) :
    ofJson? s.toJson = if s.required.all Float32.isFinite then
      some { s with rank := s.rank.filter Float32.isFinite } else none := by
  obtain ⟨hrank, hrequired⟩ := List.forall_mem_append.1 h
  obtain ⟨hmargin, hplayfield⟩ := List.forall_mem_cons.1 hrequired
  have hdecode : ofJson? s.toJson =
      (Difficulty.ofName? s.difficulty.name).bind fun difficulty =>
      (Json.toOption? Json.toFloat32? ((s.rank.map Json.ofFloat32).getD .null)).bind fun rank =>
      (Json.toOption? Json.toUInt64?
        ((s.maxBullets.map fun n => Json.ofNat n.toNat).getD .null)).bind fun maxBullets =>
      (Numeral.ofNat s.seed.toNat).toUInt64?.bind fun seed =>
      (Json.toOption? Bounds.ofJson?
        ((s.playfield.map Bounds.toJson).getD .null)).bind fun playfield =>
      (Json.ofFloat32 s.cullMargin).toFloat32?.bind fun cullMargin =>
        some ⟨difficulty, rank, maxBullets, seed, playfield, cullMargin, s.patternDir⟩ := rfl
  rw [hdecode, Difficulty.ofName?_name, Json.toOption?_ofFloat32 (by simpa using hrank),
    toOption?_maxBullets, Numeral.toUInt64?_ofNat, toOption?_playfield hplayfield,
    Json.toFloat32?_ofFloat32 hmargin, required, List.all_cons, Bool.and_comm]
  exact Json.bind_both _ _ _ _ _

/-- The text makes no difference to what is loaded, only the document does. -/
theorem load_eq (s : Settings) : load (some s.render) = (ofJson? s.toJson).getD default := by
  rw [load, Option.bind_some, parse?, render, Json.parse?_render s.isWritten_toJson]
  rfl

theorem finite_default : ∀ x ∈ default.floats, x.isFinite = true := by
  decide +kernel

theorem filter_eq_self_iff (r : Option Float32) :
    r.filter Float32.isFinite = r ↔ ∀ x ∈ r, x.isFinite = true := by
  cases r with
  | none => simp
  | some x => simp

/-- Settings come back from the text they are saved as if all their numbers are finite. A rank that
is not finite is dropped, and any other number that is not finite drops all settings. -/
theorem load_render (s : Settings) (h : ∀ x ∈ s.floats, ReadsBack x) :
    load (some s.render) = (if s.required.all Float32.isFinite then
        { s with rank := s.rank.filter Float32.isFinite } else default) ∧
      (load (some s.render) = s ↔ ∀ x ∈ s.floats, x.isFinite = true) := by
  have hload : load (some s.render) = (if s.required.all Float32.isFinite then
      { s with rank := s.rank.filter Float32.isFinite } else default) := by
    rw [load_eq, ofJson?_toJson h]
    split
    · rfl
    · rfl
  refine ⟨hload, ?_, ?_⟩
  · intro hs
    rw [hload] at hs
    split at hs
    · next hrequired =>
      have hrank := congrArg Settings.rank hs
      apply List.forall_mem_append.2 ⟨?_, List.all_eq_true.1 hrequired⟩
      simpa using (filter_eq_self_iff s.rank).1 hrank
    · subst hs
      exact finite_default
  · intro hfinite
    obtain ⟨hrank, hrequired⟩ := List.forall_mem_append.1 hfinite
    rw [hload, if_pos (List.all_eq_true.2 hrequired),
      (filter_eq_self_iff s.rank).2 (by simpa using hrank)]

/-- Settings with the largest whole numbers, numbers of very different magnitude, and a name that
has to be escaped. -/
def extreme : Settings where
  difficulty := .lunatic
  rank := some 0.1
  maxBullets := some 18446744073709551615
  seed := 18446744073709551615
  playfield := some ⟨⟨-0.3, 1e-45⟩, ⟨16777216, 3.4028235e38⟩⟩
  cullMargin := 1e-7
  patternDir := "a \"b\" \\ ü\n"

theorem extreme_survives :
    (∀ x ∈ extreme.floats, ReadsBack x) ∧ load (some extreme.render) = extreme := by
  have hreads : ∀ x ∈ extreme.floats, ReadsBack x := by decide +kernel
  have hfinite : ∀ x ∈ extreme.floats, x.isFinite = true := by decide +kernel
  exact ⟨hreads, (load_render extreme hreads).2.2 hfinite⟩

/-- A margin out of range is read as infinite and saved as nothing, and the settings that are loaded
again are the default ones. -/
theorem huge_margin_is_lost : ∃ s,
    parse? "\x7b\"difficulty\": \"Hard\", \"seed\": 7, \"cull_margin\": 1e39\x7d" = some s ∧
      s.difficulty = .hard ∧ s.seed = 7 ∧ load (some s.render) = default ∧
      load (some s.render) ≠ s := by
  have hrun : (parse?
      "\x7b\"difficulty\": \"Hard\", \"seed\": 7, \"cull_margin\": 1e39\x7d").map (fun s =>
        (s.difficulty, s.seed, (ofJson? s.toJson).isSome)) = some (.hard, 7, false) := by
    decide +kernel
  obtain ⟨s, hs, heq⟩ := Option.map_eq_some_iff.1 hrun
  simp only [Prod.mk.injEq, Option.isSome_eq_false_iff, Option.isNone_iff_eq_none] at heq
  obtain ⟨hdifficulty, hseed, hlost⟩ := heq
  have hload : load (some s.render) = default := by
    rw [load_eq, hlost]
    rfl
  refine ⟨s, hs, hdifficulty, hseed, hload, ?_⟩
  intro hsame
  have hnormal := congrArg Settings.difficulty (hload.symm.trans hsame)
  rw [hdifficulty] at hnormal
  cases hnormal

end Settings
end Barrage
