import Barrage.Library.Basic
import Mathlib.Data.List.Basic

namespace Barrage

/-- What can be asked of a library. -/
inductive LibraryCall where
  | load (name : String)
  | isLoaded (name : String)
  | available
  | clear
deriving DecidableEq, Repr

/-- What a name stands for in a source: its document, read anew. -/
def Source.fetch (source : Source) (name : String) : Except PatternError Pattern :=
  match source.read name with
  | .error e => .error e
  | .ok document => (Pattern.ofDocument name document).1

namespace Library

def perform (l : Library) : LibraryCall → Library
  | .load name => (l.load name).2
  | .clear => l.clear
  | .isLoaded _ | .available => l

/-- The library of a source before the call of the given number. -/
def before (source : Source) (calls : List LibraryCall) (i : Nat) : Library :=
  (calls.take i).foldl perform (ofSource source)

/-- The call of that number asks for a name and gets this answer. -/
def Answers (source : Source) (calls : List LibraryCall) (i : Nat) (name : String)
    (result : Except PatternError Loaded) : Prop :=
  calls[i]? = some (.load name) ∧ ((before source calls i).load name).1.result = result

/-- Nothing is dropped behind the first of two calls and before the second. -/
def Unbroken (calls : List LibraryCall) (i j : Nat) : Prop :=
  ∀ k, i < k → k < j → calls[k]? ≠ some .clear

/-- The call of that number has to go to the source. -/
def misses (source : Source) (calls : List LibraryCall) (i : Nat) : Bool :=
  match calls[i]? with
  | some (.load name) => !(before source calls i).isLoaded name
  | _ => false

/-- What a library promises over a run of calls. -/
structure Coherent (source : Source) (calls : List LibraryCall) : Prop where
  /-- A name is loaded if a call for it has succeeded since all was dropped. -/
  loaded : ∀ name, (before source calls calls.length).isLoaded name = true ↔
    ∃ i < calls.length, ∃ a, Answers source calls i name (.ok a) ∧ Unbroken calls i calls.length
  /-- Two calls share a pattern if they are for one name and nothing was dropped between them. -/
  shared : ∀ i j name name' a b, i < j → Answers source calls i name (.ok a) →
    Answers source calls j name' (.ok b) →
      (a.serial = b.serial ↔ name = name' ∧ Unbroken calls i j) ∧ (a.serial = b.serial → a = b)
  /-- Each call that misses opens the source once, and no other call does. -/
  opened : (before source calls calls.length).opens =
    (List.range calls.length).countP (misses source calls)
  /-- A call misses if its name cannot be loaded, or was not asked for since all was dropped. -/
  missed : ∀ i name, calls[i]? = some (.load name) → (misses source calls i = true ↔
    (∃ e, source.fetch name = .error e) ∨
      ∀ j < i, calls[j]? = some (.load name) → ¬Unbroken calls j i)
  /-- A call that fails changes nothing but the count of openings. -/
  failed : ∀ i name e, Answers source calls i name (.error e) →
    before source calls (i + 1) =
      { before source calls i with opens := (before source calls i).opens + 1 }
  /-- Cached or not, a call gives what the document of the name holds. -/
  faithful : ∀ i name result, Answers source calls i name result →
    result.map Loaded.pattern = source.fetch name

variable {source : Source} {calls : List LibraryCall} {l : Library} {name name' : String}
  {a b : Loaded} {e : PatternError} {i j k : Nat}

/-- What a call for a name can do. -/
inductive Loading (l : Library) (name : String) : Except PatternError Loaded → Library → Prop where
  | hit {a : Loaded} (hc : l.cache.lookup name = some a) : Loading l name (.ok a) l
  | failed {e : PatternError} (hc : l.cache.lookup name = none)
      (hf : l.source.fetch name = .error e) :
      Loading l name (.error e) { l with opens := l.opens + 1 }
  | fetched {p : Pattern} (hc : l.cache.lookup name = none) (hf : l.source.fetch name = .ok p) :
      Loading l name (.ok ⟨l.loads, p⟩)
        { l with
          opens := l.opens + 1
          cache := (name, ⟨l.loads, p⟩) :: l.cache
          loads := l.loads + 1 }

theorem loading_load (l : Library) (name : String) :
    Loading l name (l.load name).1.result (l.load name).2 := by
  cases hc : l.cache.lookup name with
  | some a =>
    simp only [load, hc]
    exact .hit hc
  | none =>
    cases hr : l.source.read name with
    | error e =>
      simp only [load, hc, hr]
      apply Loading.failed hc
      rw [Source.fetch, hr]
    | ok document =>
      cases hd : Pattern.ofDocument name document with
      | mk read notices =>
        have hfetch : l.source.fetch name = read := by
          simp only [Source.fetch, hr, hd]
        cases read with
        | error e =>
          simp only [load, hc, hr, hd]
          exact .failed hc hfetch
        | ok p =>
          simp only [load, hc, hr, hd]
          exact .fetched hc hfetch

theorem isLoaded_iff : l.isLoaded name = true ↔ ∃ a, l.cache.lookup name = some a :=
  Option.isSome_iff_exists

section Step

theorem before_succ {call : LibraryCall} (h : calls[i]? = some call) :
    before source calls (i + 1) = (before source calls i).perform call := by
  rw [before, List.take_add_one, h, List.foldl_append]
  rfl

theorem before_of_none (h : calls[i]? = none) :
    before source calls (i + 1) = before source calls i := by
  rw [before, List.take_add_one, h, Option.toList_none, List.append_nil]
  rfl

theorem source_before (source : Source) (calls : List LibraryCall) (i : Nat) :
    (before source calls i).source = source := by
  induction i with
  | zero => rfl
  | succ i ih =>
    cases hcall : calls[i]? with
    | none => rw [before_of_none hcall, ih]
    | some call =>
      rw [before_succ hcall]
      cases call with
      | load name =>
        have hload := loading_load (before source calls i) name
        rw [perform]
        generalize ((before source calls i).load name).1.result = result at hload
        generalize ((before source calls i).load name).2 = l' at hload ⊢
        cases hload with
        | hit => exact ih
        | failed => exact ih
        | fetched => exact ih
      | _ => exact ih

/-- A call for a name, with what it does to the library. -/
theorem Answers.loading {result : Except PatternError Loaded}
    (h : Answers source calls i name result) :
    Loading (before source calls i) name result (before source calls (i + 1)) := by
  rw [before_succ h.1, ← h.2]
  exact loading_load _ _

/-- A call that neither asks for a name nor drops all leaves the library as it is. -/
theorem before_succ_of_other (source : Source) (hl : ∀ name, calls[i]? ≠ some (.load name))
    (hc : calls[i]? ≠ some .clear) : before source calls (i + 1) = before source calls i := by
  cases hcall : calls[i]? with
  | none => exact before_of_none hcall
  | some call =>
    rw [before_succ hcall]
    cases call with
    | load name => exact absurd hcall (hl name)
    | clear => exact absurd hcall hc
    | _ => rfl

theorem exists_answer (source : Source) (h : calls[i]? = some (.load name)) :
    ∃ result, Answers source calls i name result := ⟨_, h, rfl⟩

end Step

section Cached

theorem Answers.cached (h : Answers source calls i name (.ok a)) :
    (before source calls (i + 1)).cache.lookup name = some a := by
  generalize hl : before source calls (i + 1) = l'
  have hload := hl ▸ h.loading
  cases hload with
  | hit hc => exact hc
  | fetched => exact List.lookup_cons_self

/-- What is cached stays so until all is dropped. -/
theorem lookup_succ (hc : (before source calls i).cache.lookup name = some a)
    (hk : calls[i]? ≠ some .clear) :
    (before source calls (i + 1)).cache.lookup name = some a := by
  by_cases hl : ∃ name', calls[i]? = some (.load name')
  · obtain ⟨name', hcall⟩ := hl
    obtain ⟨result, hanswer⟩ := exists_answer source hcall
    generalize hl' : before source calls (i + 1) = l'
    have hload := hl' ▸ hanswer.loading
    cases hload with
    | hit => exact hc
    | failed => exact hc
    | fetched hnone =>
      have hne : name ≠ name' := by
        rintro rfl
        rw [hc] at hnone
        cases hnone
      rw [List.lookup_cons, beq_eq_false_iff_ne.2 hne]
      exact hc
  · rw [before_succ_of_other source (not_exists.1 hl) hk]
    exact hc

theorem lookup_of_unbroken (hc : (before source calls (i + 1)).cache.lookup name = some a)
    (hij : i < j) (hu : Unbroken calls i j) :
    (before source calls j).cache.lookup name = some a := by
  induction hij with
  | refl => exact hc
  | @step j hj ih =>
    have hbefore := ih fun k hik hkj => hu k hik (Nat.lt_succ_of_lt hkj)
    exact lookup_succ hbefore (hu j hj (Nat.lt_succ_self j))

/-- The call of that number has loaded the pattern from the source. -/
structure Fetches (source : Source) (calls : List LibraryCall) (i : Nat) (name : String)
    (a : Loaded) : Prop where
  answers : Answers source calls i name (.ok a)
  serial : a.serial = (before source calls i).loads
  loads : (before source calls (i + 1)).loads = (before source calls i).loads + 1
  pattern : source.fetch name = .ok a.pattern

theorem Answers.fetches (h : Answers source calls i name (.ok a))
    (hc : (before source calls i).cache.lookup name = none) : Fetches source calls i name a := by
  have hsource := source_before source calls i
  generalize hl : before source calls (i + 1) = l'
  have hload := hl ▸ h.loading
  cases hload with
  | hit hc' =>
    rw [hc] at hc'
    cases hc'
  | fetched _ hf =>
    refine ⟨h, rfl, by rw [hl], ?_⟩
    rw [← hsource]
    exact hf

/-- What is cached was loaded by a call since which nothing was dropped. -/
theorem exists_fetch_of_lookup (hc : (before source calls j).cache.lookup name = some a) :
    ∃ o < j, Fetches source calls o name a ∧ Unbroken calls o j := by
  induction j with
  | zero => cases hc
  | succ j ih =>
    -- Whatever the call is, an entry it found there keeps the call it came from.
    have hlater (hbefore : (before source calls j).cache.lookup name = some a)
        (hk : calls[j]? ≠ some .clear) :
        ∃ o < j + 1, Fetches source calls o name a ∧ Unbroken calls o (j + 1) := by
      obtain ⟨o, ho, hfetch, hu⟩ := ih hbefore
      refine ⟨o, Nat.lt_succ_of_lt ho, hfetch, ?_⟩
      intro k hok hkj
      rcases Nat.lt_succ_iff_lt_or_eq.1 hkj with hlt | rfl
      · exact hu k hok hlt
      · exact hk
    by_cases hl : ∃ name', calls[j]? = some (.load name')
    · obtain ⟨name', hcall⟩ := hl
      have hk : calls[j]? ≠ some .clear := by
        intro hclear
        rw [hcall] at hclear
        cases hclear
      obtain ⟨result, hanswer⟩ := exists_answer source hcall
      generalize hl' : before source calls (j + 1) = l' at hc
      have hload := hl' ▸ hanswer.loading
      cases hload with
      | hit => exact hlater hc hk
      | failed => exact hlater hc hk
      | fetched hnone =>
        by_cases hname : name = name'
        · subst hname
          rw [List.lookup_cons_self] at hc
          cases hc
          refine ⟨j, Nat.lt_succ_self j, hanswer.fetches hnone, ?_⟩
          intro k hjk hkj
          exact absurd hkj (Nat.not_lt.2 hjk)
        · rw [List.lookup_cons, beq_eq_false_iff_ne.2 hname] at hc
          exact hlater hc hk
    · by_cases hk : calls[j]? = some .clear
      · rw [before_succ hk] at hc
        cases hc
      · rw [before_succ_of_other source (not_exists.1 hl) hk] at hc
        exact hlater hc hk

/-- The call that a pattern comes from. -/
theorem Answers.exists_fetch (h : Answers source calls j name (.ok a)) :
    ∃ o ≤ j, Fetches source calls o name a ∧ Unbroken calls o j := by
  cases hc : (before source calls j).cache.lookup name with
  | none => exact ⟨j, Nat.le_refl j, h.fetches hc, fun k hjk hkj => absurd hjk (Nat.lt_asymm hkj)⟩
  | some b =>
    obtain ⟨o, ho, hfetch, hu⟩ := exists_fetch_of_lookup hc
    have hload := h.loading
    generalize before source calls (j + 1) = l' at hload
    cases hload with
    | hit hc' =>
      rw [hc] at hc'
      cases hc'
      exact ⟨o, Nat.le_of_lt ho, hfetch, hu⟩
    | fetched hc' =>
      rw [hc] at hc'
      cases hc'

end Cached

section Serials

theorem loads_le_succ (source : Source) (calls : List LibraryCall) (i : Nat) :
    (before source calls i).loads ≤ (before source calls (i + 1)).loads := by
  by_cases hl : ∃ name, calls[i]? = some (.load name)
  · obtain ⟨name, hcall⟩ := hl
    obtain ⟨result, hanswer⟩ := exists_answer source hcall
    have hload := hanswer.loading
    generalize before source calls (i + 1) = l' at hload ⊢
    cases hload with
    | hit => exact Nat.le_refl _
    | failed => exact Nat.le_refl _
    | fetched => exact Nat.le_succ _
  · by_cases hk : calls[i]? = some .clear
    · rw [before_succ hk]
      exact Nat.le_refl _
    · have hsame := before_succ_of_other source (not_exists.1 hl) hk
      exact Nat.le_of_eq (congrArg loads hsame.symm)

theorem loads_mono (source : Source) (calls : List LibraryCall) (h : i ≤ j) :
    (before source calls i).loads ≤ (before source calls j).loads := by
  induction h with
  | refl => exact Nat.le_refl _
  | @step j _ ih => exact Nat.le_trans ih (loads_le_succ source calls j)

/-- Patterns that are loaded one after the other have different numbers. -/
theorem Fetches.serial_lt (h : Fetches source calls i name a)
    (h' : Fetches source calls j name' b) (hij : i < j) : a.serial < b.serial := by
  have hmono := loads_mono source calls hij
  rw [h.loads, ← h.serial, ← h'.serial] at hmono
  exact hmono

theorem Fetches.unique (h : Fetches source calls i name a)
    (h' : Fetches source calls j name' b) (hs : a.serial = b.serial) :
    i = j ∧ name = name' ∧ a = b := by
  have hij : i = j := by
    apply Nat.le_antisymm
    · exact Nat.not_lt.1 fun hlt => Nat.ne_of_gt (h'.serial_lt h hlt) hs
    · exact Nat.not_lt.1 fun hlt => Nat.ne_of_lt (h.serial_lt h' hlt) hs
  subst hij
  have hname : name = name' := by
    have hcall := h.answers.1
    rw [h'.answers.1] at hcall
    cases hcall
    rfl
  subst hname
  have hresult := h.answers.2
  rw [h'.answers.2] at hresult
  cases hresult
  exact ⟨rfl, rfl, rfl⟩

end Serials

section Openings

theorem misses_of_load (source : Source) (h : calls[i]? = some (.load name)) :
    misses source calls i = !(before source calls i).isLoaded name := by
  simp only [misses, h]

theorem misses_iff (h : calls[i]? = some (.load name)) :
    misses source calls i = true ↔ (before source calls i).cache.lookup name = none := by
  rw [misses_of_load source h, Bool.not_eq_true', ← Bool.not_eq_true, isLoaded_iff,
    ← Option.ne_none_iff_exists', not_not]

theorem opens_succ (source : Source) (calls : List LibraryCall) (i : Nat) :
    (before source calls (i + 1)).opens =
      (before source calls i).opens + (misses source calls i).toNat := by
  by_cases hl : ∃ name, calls[i]? = some (.load name)
  · obtain ⟨name, hcall⟩ := hl
    obtain ⟨result, hanswer⟩ := exists_answer source hcall
    have hload := hanswer.loading
    rw [misses_of_load source hcall, isLoaded]
    generalize before source calls (i + 1) = l' at hload ⊢
    cases hload with
    | hit hc =>
      rw [hc]
      rfl
    | failed hc =>
      rw [hc]
      rfl
    | fetched hc =>
      rw [hc]
      rfl
  · have hmiss : misses source calls i = false := by
      unfold misses
      split
      · next name hcall => exact absurd ⟨name, hcall⟩ hl
      · rfl
    rw [hmiss]
    by_cases hk : calls[i]? = some .clear
    · rw [before_succ hk]
      rfl
    · rw [before_succ_of_other source (not_exists.1 hl) hk]
      rfl

theorem opens_eq_countP (source : Source) (calls : List LibraryCall) (i : Nat) :
    (before source calls i).opens = (List.range i).countP (misses source calls) := by
  induction i with
  | zero => rfl
  | succ i ih =>
    rw [opens_succ, ih, List.range_succ, List.countP_append, List.countP_singleton]
    cases misses source calls i with
    | true => rfl
    | false => rfl

end Openings

theorem Answers.map_pattern {result : Except PatternError Loaded}
    (h : Answers source calls i name result) :
    result.map Loaded.pattern = source.fetch name := by
  have hsource := source_before source calls i
  have hload := h.loading
  generalize before source calls (i + 1) = l' at hload
  cases hload with
  | hit hc =>
    obtain ⟨o, _, hfetch, _⟩ := exists_fetch_of_lookup hc
    exact hfetch.pattern.symm
  | failed _ hf =>
    rw [hsource] at hf
    exact hf.symm
  | fetched _ hf =>
    rw [hsource] at hf
    exact hf.symm

theorem Answers.before_of_error (h : Answers source calls i name (.error e)) :
    before source calls (i + 1) =
      { before source calls i with opens := (before source calls i).opens + 1 } := by
  have hload := h.loading
  generalize before source calls (i + 1) = l' at hload ⊢
  cases hload with
  | failed => rfl

theorem isLoaded_before_iff (source : Source) (calls : List LibraryCall) (j : Nat)
    (name : String) : (before source calls j).isLoaded name = true ↔
      ∃ i < j, ∃ a, Answers source calls i name (.ok a) ∧ Unbroken calls i j := by
  rw [isLoaded_iff]
  constructor
  · rintro ⟨a, hc⟩
    obtain ⟨i, hij, hfetch, hu⟩ := exists_fetch_of_lookup hc
    exact ⟨i, hij, a, hfetch.answers, hu⟩
  · rintro ⟨i, hij, a, hanswer, hu⟩
    exact ⟨a, lookup_of_unbroken hanswer.cached hij hu⟩

/-- Two calls share a pattern if they are for one name and nothing was dropped between them. -/
theorem Answers.serial_eq_iff (h : Answers source calls i name (.ok a))
    (h' : Answers source calls j name' (.ok b)) (hij : i < j) :
    a.serial = b.serial ↔ name = name' ∧ Unbroken calls i j := by
  constructor
  · intro hs
    obtain ⟨o, ho, hfetch, _⟩ := h.exists_fetch
    obtain ⟨o', _, hfetch', hu⟩ := h'.exists_fetch
    obtain ⟨rfl, hname, _⟩ := hfetch.unique hfetch' hs
    exact ⟨hname, fun k hik hkj => hu k (Nat.lt_of_le_of_lt ho hik) hkj⟩
  · rintro ⟨rfl, hu⟩
    have hc := lookup_of_unbroken h.cached hij hu
    have hload := h'.loading
    generalize before source calls (j + 1) = l' at hload
    cases hload with
    | hit hc' =>
      rw [hc] at hc'
      cases hc'
      rfl
    | fetched hc' =>
      rw [hc] at hc'
      cases hc'

theorem Answers.eq_of_serial_eq (h : Answers source calls i name (.ok a))
    (h' : Answers source calls j name' (.ok b)) (hs : a.serial = b.serial) : a = b := by
  obtain ⟨o, _, hfetch, _⟩ := h.exists_fetch
  obtain ⟨o', _, hfetch', _⟩ := h'.exists_fetch
  exact (hfetch.unique hfetch' hs).2.2

theorem misses_iff_fetch (h : calls[i]? = some (.load name)) :
    misses source calls i = true ↔ (∃ e, source.fetch name = .error e) ∨
      ∀ j < i, calls[j]? = some (.load name) → ¬Unbroken calls j i := by
  rw [misses_iff h]
  constructor
  · intro hnone
    cases hf : source.fetch name with
    | error e => exact .inl ⟨e, rfl⟩
    | ok p =>
      right
      intro j hij hcall hu
      obtain ⟨result, hanswer⟩ := exists_answer source hcall
      have hmap := hanswer.map_pattern
      rw [hf] at hmap
      cases result with
      | error => cases hmap
      | ok a =>
        have hc := lookup_of_unbroken hanswer.cached hij hu
        rw [hnone] at hc
        cases hc
  · intro hmiss
    rw [← Option.not_isSome_iff_eq_none, Option.isSome_iff_exists]
    rintro ⟨a, hc⟩
    obtain ⟨o, ho, hfetch, hu⟩ := exists_fetch_of_lookup hc
    rcases hmiss with ⟨e, he⟩ | hfirst
    · rw [hfetch.pattern] at he
      cases he
    · exact hfirst o ho hfetch.answers.1 hu

/-- Whatever is asked of a library, and in whatever order, it answers as its source would, shares
what it has loaded and goes to the source no more often than it must. -/
theorem library_is_coherent (source : Source) (calls : List LibraryCall) :
    Coherent source calls where
  loaded name := isLoaded_before_iff source calls calls.length name
  shared _ _ _ _ _ _ hij h h' := ⟨h.serial_eq_iff h' hij, h.eq_of_serial_eq h'⟩
  opened := opens_eq_countP source calls calls.length
  missed _ _ h := misses_iff_fetch h
  failed _ _ _ h := h.before_of_error
  faithful _ _ _ h := h.map_pattern

end Library
end Barrage
