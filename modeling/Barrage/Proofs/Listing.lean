import Barrage.Library.Folder
import Mathlib.Data.List.Nodup
import Mathlib.Data.List.TakeWhile

namespace Barrage

namespace Entry

/-- The entries of a folder have different names, and no slash is in one. -/
structure AreNamed (entries : List (String × Entry)) : Prop where
  nodup : (entries.map Prod.fst).Nodup
  noSlash : ∀ name ∈ entries.map Prod.fst, '/' ∉ name.toList

variable {entries : List (String × Entry)} {e e' : Entry} {path name : String}

theorem AreNamed.lookup (h : AreNamed entries) (he : (name, e) ∈ entries) :
    entries.lookup name = some e := by
  have hnodup := h.nodup
  clear h
  induction entries with
  | nil => cases he
  | cons first entries ih =>
    obtain ⟨hfirst, hrest⟩ := List.nodup_cons.1 hnodup
    cases he with
    | head => exact List.lookup_cons_self
    | tail _ he =>
      have hne : name ≠ first.1 := by
        rintro rfl
        exact hfirst (List.mem_map.2 ⟨_, he, rfl⟩)
      rw [List.lookup_cons, beq_eq_false_iff_ne.2 hne]
      exact ih he hrest

section Path

theorem pathParts_append (path rest : String) :
    pathParts (path ++ "/" ++ rest) = pathParts path ++ pathParts rest := by
  have hslash : "/".toList = ['/'] := rfl
  rw [pathParts, String.toList_append, String.toList_append, hslash, List.append_assoc,
    List.singleton_append, List.splitOn_append_cons_self, List.filter_append, List.map_append]
  rfl

theorem pathParts_single (hs : '/' ∉ name.toList) (hn : name ≠ "") : pathParts name = [name] := by
  have hne : name.toList.isEmpty = false := by
    rw [List.isEmpty_eq_false_iff]
    intro hnil
    exact hn (String.toList_eq_nil_iff.1 hnil)
  rw [pathParts, List.splitOn_eq_singleton hs]
  simp only [List.filter_singleton, hne, Bool.not_false, cond_true, List.map_singleton,
    String.ofList_toList]

theorem pathParts_empty : pathParts "" = [] := rfl

end Path

theorem follow?_name (hdot : name ≠ ".") (hdots : name ≠ "..") (here : List (String × Entry))
    (around : List Entry) (parts : List String) :
    follow? (.folder here :: around) (name :: parts) =
      (here.lookup name).bind fun e => follow? (e :: .folder here :: around) parts := by
  rw [follow?.eq_5 _ _ _ _ hdot hdots]
  cases here.lookup name with
  | none => rfl
  | some e => rfl

/-- The last part of a path is looked up in the folder that the others lead to. -/
theorem follow?_append {around : List Entry} {parts : List String}
    (h : follow? around parts = some (.folder entries)) (hdot : name ≠ ".") (hdots : name ≠ "..") :
    follow? around (parts ++ [name]) = entries.lookup name := by
  -- Only the end of the walk is new: every case but the first takes the same step on both sides.
  induction around, parts using follow?.induct with
  | case1 around =>
    rw [follow?] at h
    obtain ⟨outer, rfl⟩ := List.head?_eq_some_iff.1 h
    rw [List.nil_append, follow?_name hdot hdots]
    cases entries.lookup name with
    | none => rfl
    | some e => rfl
  | case2 here around parts ih =>
    rw [follow?] at h
    rw [List.cons_append, follow?]
    exact ih h
  | case3 here parts =>
    rw [follow?] at h
    cases h
  | case4 here parts around hne ih =>
    rw [follow?.eq_4 _ _ _ hne] at h
    rw [List.cons_append, follow?.eq_4 _ _ _ hne]
    exact ih h
  | case5 here around parts part hdot' hdots' e hlookup ih =>
    rw [follow?_name hdot' hdots', hlookup] at h
    rw [List.cons_append, follow?_name hdot' hdots', hlookup]
    exact ih h
  | case6 here around parts part hdot' hdots' hlookup =>
    rw [follow?_name hdot' hdots', hlookup] at h
    cases h
  | case7 around part parts hne =>
    rw [follow?] at h
    · cases h
    · exact hne

theorem at?_eq_some (h : e.at? path = some e') :
    path ≠ "" ∧ path.toList.head? ≠ some '/' ∧ follow? [e] (pathParts path) = some e' := by
  unfold at? at h
  split at h
  · cases h
  · next hpath =>
    rw [Bool.or_eq_true, not_or, String.isEmpty_iff, beq_iff_eq] at hpath
    exact ⟨hpath.1, hpath.2, h⟩

end Entry

namespace Source

variable {working : Entry} {entries : List (String × Entry)} {e : Entry}
  {path name stem entry : String}

/-- The name has the ending of a document. -/
def EndsXml (name : String) : Prop := ∃ stem, name = stem ++ ".xml"

/-- What is said of a name that leads to this. -/
def answer (name : String) : Option Entry → Except PatternError Markup.Bytes
  | some (.file content) => .ok content
  | _ => .error (.patternNotFound name)

section Join

theorem joinPath_eq (hp : path ≠ "") (hs : '/' ∉ name.toList) :
    joinPath path name =
      if path.toList.getLast? == some '/' then path ++ name else path ++ "/" ++ name := by
  apply if_neg
  rw [Bool.or_eq_true, beq_iff_eq, String.isEmpty_iff]
  rintro (hhead | hempty)
  · exact hs (List.mem_of_head? hhead)
  · exact hp hempty

theorem head?_joinPath (hp : path ≠ "") (hs : '/' ∉ name.toList) :
    (joinPath path name).toList.head? = path.toList.head? := by
  obtain ⟨c, cs, hpath⟩ := List.exists_cons_of_ne_nil (mt String.toList_eq_nil_iff.1 hp)
  rw [joinPath_eq hp hs]
  split
  · rw [String.toList_append, hpath]
    rfl
  · rw [String.toList_append, String.toList_append, hpath]
    rfl

/-- A name behind a path is the last part of it. -/
theorem pathParts_joinPath (hp : path ≠ "") (hs : '/' ∉ name.toList) (hn : name ≠ "") :
    Entry.pathParts (joinPath path name) = Entry.pathParts path ++ [name] := by
  rw [joinPath_eq hp hs]
  split
  · next hlast =>
    obtain ⟨cs, hcs⟩ := List.getLast?_eq_some_iff.1 (beq_iff_eq.1 hlast)
    have hpath : path = .ofList cs ++ "/" ++ "" := by
      apply String.toList_injective
      rw [hcs, String.append_empty, String.toList_append, String.toList_ofList]
      rfl
    have hjoined : path ++ name = .ofList cs ++ "/" ++ name := by
      rw [hpath, String.append_empty]
    rw [hjoined, Entry.pathParts_append, hpath, Entry.pathParts_append, Entry.pathParts_empty,
      List.append_nil, Entry.pathParts_single hs hn]
  · rw [Entry.pathParts_append, Entry.pathParts_single hs hn]

theorem at?_joinPath (h : working.at? path = some (.folder entries)) (hs : '/' ∉ name.toList)
    (hx : EndsXml name) : working.at? (joinPath path name) = entries.lookup name := by
  obtain ⟨hp, hroot, hfollow⟩ := Entry.at?_eq_some h
  obtain ⟨stem, rfl⟩ := hx
  have hne (text : String) (hlength : text.length < 4) : stem ++ ".xml" ≠ text := by
    rintro rfl
    rw [String.length_append] at hlength
    exact absurd hlength (Nat.not_lt.2 (Nat.le_add_left _ _))
  have hhead := head?_joinPath hp hs
  rw [Entry.at?, if_neg, pathParts_joinPath hp hs (hne "" (by decide)),
    Entry.follow?_append hfollow (hne "." (by decide)) (hne ".." (by decide))]
  rw [Bool.or_eq_true, String.isEmpty_iff, beq_iff_eq, hhead]
  rintro (hempty | hslash)
  · rw [hempty] at hhead
    exact hp (String.toList_eq_nil_iff.1 (List.head?_eq_none_iff.1 hhead.symm))
  · exact hroot hslash

end Join

section Names

theorem toList_xml (stem : String) :
    (stem ++ ".xml").toList = stem.toList ++ ['.', 'x', 'm', 'l'] :=
  String.toList_append

theorem endsXml_iff : EndsXml name ↔
    ((name.toList.reverse.take 4).reverse == ['.', 'x', 'm', 'l']) = true := by
  rw [beq_iff_eq]
  constructor
  · rintro ⟨stem, rfl⟩
    rw [toList_xml, List.reverse_append]
    rfl
  · intro h
    refine ⟨.ofList (name.toList.reverse.drop 4).reverse, String.toList_injective ?_⟩
    rw [toList_xml, String.toList_ofList, ← h, ← List.reverse_append, List.take_append_drop,
      List.reverse_reverse]

instance : Decidable (EndsXml name) := decidable_of_iff _ endsXml_iff.symm

theorem fileName_of_endsXml (h : EndsXml name) : fileName name = name :=
  if_pos (endsXml_iff.1 h)

theorem fileName_of_not_endsXml (h : ¬EndsXml name) : fileName name = name ++ ".xml" :=
  if_neg (mt endsXml_iff.2 h)

/-- A list whose first dot stands fourth, behind the ending read backwards. -/
theorem eq_of_takeWhile {cs : List Char} (h : cs.takeWhile (· != '.') = ['l', 'm', 'x'])
    (hs : (cs.dropWhile (· != '.')).drop 1 ≠ []) :
    cs = 'l' :: 'm' :: 'x' :: '.' :: (cs.dropWhile (· != '.')).drop 1 := by
  have hsplit := @List.takeWhile_append_dropWhile _ (· != '.') cs
  have hfirst := List.head?_dropWhile_not (· != '.') cs
  rw [h] at hsplit
  generalize cs.dropWhile (· != '.') = rest at hsplit hfirst hs ⊢
  cases rest with
  | nil => exact absurd rfl hs
  | cons c stem =>
    have hdot : c = '.' := by simpa using hfirst
    rw [← hsplit, hdot]
    rfl

/-- An entry is listed by what precedes its ending. -/
theorem listedName?_eq_some :
    listedName? entry = some name ↔ entry = name ++ ".xml" ∧ name ≠ "" := by
  constructor
  · intro h
    simp only [listedName?, Option.ite_none_right_eq_some, Bool.and_eq_true, beq_iff_eq,
      Bool.not_eq_true', List.isEmpty_eq_false_iff, Option.some.injEq] at h
    obtain ⟨⟨hending, hstem⟩, rfl⟩ := h
    have hreversed := eq_of_takeWhile hending hstem
    refine ⟨String.toList_injective ?_, ?_⟩
    · rw [toList_xml, String.toList_ofList, ← List.reverse_inj, hreversed, List.reverse_append,
        List.reverse_reverse]
      rfl
    · intro hempty
      have hnil := congrArg String.toList hempty
      rw [String.toList_ofList] at hnil
      exact hstem (List.reverse_eq_nil_iff.1 hnil)
  · rintro ⟨rfl, hn⟩
    have hreversed : (name ++ ".xml").toList.reverse =
        'l' :: 'm' :: 'x' :: '.' :: name.toList.reverse := by
      rw [toList_xml, List.reverse_append]
      rfl
    have hstem : name.toList.reverse.isEmpty = false := by
      rw [List.isEmpty_eq_false_iff, ne_eq, List.reverse_eq_nil_iff, String.toList_eq_nil_iff]
      exact hn
    have hlisted : listedName? (name ++ ".xml") =
        if !name.toList.reverse.isEmpty then some (.ofList name.toList.reverse.reverse)
        else none := by
      rw [listedName?, hreversed]
      rfl
    rw [hlisted, hstem, Bool.not_false, if_pos rfl, List.reverse_reverse, String.ofList_toList]

theorem mem_listedNames {names : List String} :
    name ∈ listedNames names ↔ name ≠ "" ∧ name ++ ".xml" ∈ names := by
  rw [listedNames, sortNames, List.mem_mergeSort, List.mem_filterMap]
  constructor
  · rintro ⟨entry, hmem, hlisted⟩
    obtain ⟨rfl, hn⟩ := listedName?_eq_some.1 hlisted
    exact ⟨hn, hmem⟩
  · rintro ⟨hn, hmem⟩
    exact ⟨_, hmem, listedName?_eq_some.2 ⟨rfl, hn⟩⟩

theorem nodup_listedNames {names : List String} (h : names.Nodup) : (listedNames names).Nodup := by
  apply (List.mergeSort_perm _ _).nodup_iff.2
  apply List.Nodup.filterMap _ h
  intro entry entry' name hlisted hlisted'
  rw [(listedName?_eq_some.1 hlisted).1, (listedName?_eq_some.1 hlisted').1]

end Names

theorem read_ofFolder (h : working.at? path = some (.folder entries))
    (hs : '/' ∉ (fileName name).toList) :
    (ofFolder working path).read name = answer name (entries.lookup (fileName name)) := by
  have hx : EndsXml (fileName name) := by
    by_cases hx : EndsXml name
    · rw [fileName_of_endsXml hx]
      exact hx
    · exact ⟨name, fileName_of_not_endsXml hx⟩
  rw [← at?_joinPath h hs hx]
  simp only [ofFolder]
  cases working.at? (joinPath path (fileName name)) with
  | none => rfl
  | some e =>
    cases e with
    | file => rfl
    | folder => rfl

/-- A folder lists what precedes the ending of each of its entries that have one, and no name twice.
Such a name leads back to its entry, which can be read if it is a file. But a name that still has
the ending leads to the entry that is called so, whether that is there or not. -/
theorem listed_names_lead_back (h : working.at? path = some (.folder entries))
    (hn : Entry.AreNamed entries) :
    ∃ names, (ofFolder working path).names = .ok names ∧ names.Nodup ∧
      (∀ name, name ∈ names ↔ name ≠ "" ∧ ∃ e, (name ++ ".xml", e) ∈ entries) ∧
      ∀ name e, name ∈ names → (name ++ ".xml", e) ∈ entries →
        (¬EndsXml name → (ofFolder working path).read name = answer name (some e)) ∧
        (EndsXml name → (ofFolder working path).read name = answer name (entries.lookup name)) := by
  have hnames : (ofFolder working path).names = .ok (listedNames (entries.map Prod.fst)) := by
    simp only [ofFolder, h]
  refine ⟨_, hnames, nodup_listedNames hn.nodup, ?_, ?_⟩
  · intro name
    rw [mem_listedNames, List.mem_map]
    constructor
    · rintro ⟨hne, ⟨entry, e⟩, hmem, rfl⟩
      exact ⟨hne, e, hmem⟩
    · rintro ⟨hne, e, hmem⟩
      exact ⟨hne, _, hmem, rfl⟩
  · intro name e _ hmem
    have hslash := hn.noSlash _ (List.mem_map_of_mem hmem)
    refine ⟨?_, ?_⟩
    · intro hx
      have hfile := fileName_of_not_endsXml hx
      rw [read_ofFolder h (hfile ▸ hslash), hfile, hn.lookup hmem]
    · intro hx
      have hfile := fileName_of_endsXml hx
      have hslash' : '/' ∉ (fileName name).toList := by
        rw [hfile]
        rw [toList_xml, List.mem_append, not_or] at hslash
        exact hslash.1
      rw [read_ofFolder h hslash', hfile]

/-- A folder of documents, in which a folder has the ending too. -/
def shelf : List (String × Entry) :=
  [("a.xml", .file [1]), ("a.xml.xml", .file [2]), ("b.xml", .folder []), ("c.txt", .file [3])]

def room : Entry := .folder [("shelf", .folder shelf)]

theorem areNamed_shelf : Entry.AreNamed shelf where
  nodup := by decide
  noSlash := by decide

theorem shelf_leads_back : ∃ names, (ofFolder room "shelf").names = .ok names ∧ names.Nodup ∧
    "a" ∈ names ∧ (ofFolder room "shelf").read "a" = .ok [1] := by
  have hshelf : room.at? "shelf" = some (.folder shelf) := by rfl
  obtain ⟨names, hnames, hnodup, hlisted, hread⟩ := listed_names_lead_back hshelf areNamed_shelf
  have ha : "a" ∈ names := (hlisted "a").2 ⟨by decide, .file [1], .head _⟩
  exact ⟨names, hnames, hnodup, ha, (hread "a" (.file [1]) ha (.head _)).1 (by decide)⟩

/-- What a name of that folder leads to need not be what it was listed for, and another leads to
nothing at all. -/
theorem shelf_misleads : ∃ names, (ofFolder room "shelf").names = .ok names ∧
    "a.xml" ∈ names ∧ ("a.xml.xml", .file [2]) ∈ shelf ∧
    (ofFolder room "shelf").read "a.xml" = .ok [1] ∧
    "b" ∈ names ∧ (ofFolder room "shelf").read "b" = .error (.patternNotFound "b") := by
  refine ⟨listedNames (shelf.map Prod.fst), rfl, ?_, ?_, rfl, ?_, rfl⟩
  · rw [mem_listedNames]
    decide
  · exact .tail _ (.head _)
  · rw [mem_listedNames]
    decide

end Source
end Barrage
