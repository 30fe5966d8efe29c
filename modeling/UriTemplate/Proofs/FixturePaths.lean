import UriTemplate.Discovery
import UriTemplate.Proofs.LossyReading
import UriTemplate.Proofs.TextFacts

/-!
# Paths of fixture files

A walk writes the path of a file by putting the names on the way to it after the path
of the root, and the suite of the file is called by what is below the root again.  The
root can be spelled in many ways, with idle parts anywhere, so its parts are told from
those of the place: `Path.folderText` is what stands before the slash of the first name.
All of this is about bytes; only the name of a suite is read from them as a text.

* `Path.within_eq`: the path of a place, as it is written.
* `Path.start_within`: its parts, by cases on how the root starts.
* `Path.below?_within` and `Path.name?_within`: reading such a path gives the place
  below the root, and the last name of it.
* `Path.namesBelow`: the names that a file goes by, also when it is the root itself.
* `isFixture_within`: a file is a fixture by its name alone.
* `name_ofPath_within`: the name of its suite is what is read of those names, without the
  extension.
-/

namespace UriTemplate

namespace Files

/-- Whether an entry of a folder can have the name.  It is one part of a path, and
leads neither nowhere nor up. -/
structure IsEntryName (name : FileName) : Prop where
  ne_nil : name ≠ []
  slash_notMem : Path.slash ∉ name
  ne_here : name ≠ [Path.dot]
  ne_up : name ≠ Path.up

instance (name : FileName) : Decidable (IsEntryName name) :=
  decidable_of_iff (name ≠ [] ∧ Path.slash ∉ name ∧ name ≠ [Path.dot] ∧ name ≠ Path.up)
    ⟨fun ⟨hne, hslash, hhere, hup⟩ => ⟨hne, hslash, hhere, hup⟩,
      fun h => ⟨h.ne_nil, h.slash_notMem, h.ne_here, h.ne_up⟩⟩

theorem IsEntryName.isIdle_eq {name : FileName} (h : IsEntryName name) :
    Path.isIdle name = false := by
  simp [Path.isIdle, h.ne_nil, h.ne_here]

theorem IsEntryName.isAbsolute_append {name : FileName} (h : IsEntryName name) (t : Path) :
    Path.isAbsolute (name ++ t) = false := by
  obtain ⟨c, rest, rfl⟩ := List.exists_cons_of_ne_nil h.ne_nil
  have hc : c ≠ Path.slash := fun heq => h.slash_notMem (heq ▸ List.mem_cons_self)
  simpa [Path.isAbsolute] using hc

/-- Whether a place is below a folder, by names that entries can have. -/
structure IsBelow (place : Place) : Prop where
  ne_nil : place ≠ []
  names : ∀ name ∈ place, IsEntryName name

namespace Path

variable {root : Path} {name : FileName} {place : Place}

/-! ## Rows of parts -/

theorem fields_append_cons (p q : Path) : fields (p ++ slash :: q) = p.fields ++ q.fields :=
  List.splitOn_append_cons_of_beq p q (beq_self_eq_true slash)

theorem ofFields_fields (p : Path) : ofFields p.fields = p :=
  List.intercalate_splitOn slash

@[simp] theorem ofFields_singleton (name : FileName) : ofFields [name] = name :=
  List.intercalate_singleton

@[simp] theorem ofFields_cons_cons (name next : FileName) (place : Place) :
    ofFields (name :: next :: place) = name ++ slash :: ofFields (next :: place) := by
  rw [ofFields, List.intercalate_cons_cons, List.append_assoc]
  rfl

/-- The path that a walk from `root` writes for a place below it. -/
def within (root : Path) (place : Place) : Path :=
  place.foldl join root

/-! ## Paths that a walk writes -/

/-- The text before the slash that names below a path are put after. -/
def folderText (root : Path) : Path :=
  if root.getLast? = some slash then root.dropLast else root

theorem join_eq (hroot : root ≠ []) (hname : IsEntryName name) :
    root.join name = root.folderText ++ slash :: name := by
  have habsolute : isAbsolute name = false := by simpa using hname.isAbsolute_append []
  have hempty : root.isEmpty = false := by simpa using hroot
  rw [join, habsolute, hempty, folderText]
  simp only [Bool.false_eq_true, or_self, if_false]
  by_cases hlast : root.getLast? = some slash
  · rw [if_pos hlast, if_pos hlast]
    obtain ⟨front, rfl⟩ := List.getLast?_eq_some_iff.1 hlast
    simp
  · rw [if_neg hlast, if_neg hlast]

/-- A path with a name at its end does not end in a slash. -/
theorem folderText_append (hname : IsEntryName name) (t : Path) :
    folderText (t ++ slash :: name) = t ++ slash :: name := by
  obtain ⟨front, c, rfl⟩ := (List.eq_nil_or_concat name).resolve_left hname.ne_nil
  have hc : c ≠ slash := by
    rintro rfl
    exact hname.slash_notMem (by simp)
  have hlast : (t ++ slash :: (front ++ [c])).getLast? = some c := by
    rw [← List.cons_append, ← List.append_assoc, List.getLast?_concat]
  rw [folderText, List.concat_eq_append, hlast, if_neg (by simpa using hc)]

theorem within_eq (hroot : root ≠ []) (hplace : IsBelow place) :
    root.within place = root.folderText ++ slash :: ofFields place := by
  induction place generalizing root with
  | nil => exact absurd rfl hplace.ne_nil
  | cons name place ih =>
    obtain ⟨hname, hrest⟩ := List.forall_mem_cons.1 hplace.names
    have hjoin := join_eq hroot hname
    cases place with
    | nil =>
      rw [ofFields_singleton]
      exact hjoin
    | cons next place =>
      have hstep : (root.join name).within (next :: place) =
          (root.join name).folderText ++ slash :: ofFields (next :: place) :=
        ih (by simp [hjoin]) ⟨by simp, hrest⟩
      rw [hjoin, folderText_append hname, ← hjoin] at hstep
      show (root.join name).within (next :: place) = _
      rw [hstep, hjoin, ofFields_cons_cons]
      simp

theorem fields_ofFields (hplace : IsBelow place) :
    fields (ofFields place) = place :=
  List.splitOn_intercalate slash (fun name hname => (hplace.names name hname).slash_notMem)
    hplace.ne_nil

/-- The parts of a path with a place below it are the parts of both. -/
theorem fields_within (hroot : root ≠ []) (hplace : IsBelow place) :
    ∃ first front idle, root.fields = first :: front ++ idle ∧
      (∀ part ∈ idle, isIdle part = true) ∧
      (root.within place).fields = first :: front ++ place := by
  have hwithin : (root.within place).fields = root.folderText.fields ++ place := by
    rw [within_eq hroot hplace, fields_append_cons, fields_ofFields hplace]
  obtain ⟨first, front, hfront⟩ : ∃ first front, root.folderText.fields = first :: front :=
    List.exists_cons_of_ne_nil (List.splitOn_ne_nil slash root.folderText)
  rw [hfront] at hwithin
  by_cases hlast : root.getLast? = some slash
  · obtain ⟨t, ht⟩ := List.getLast?_eq_some_iff.1 hlast
    refine ⟨first, front, [[]], ?_, by simp [isIdle], hwithin⟩
    rw [← hfront, folderText, if_pos hlast, ht, List.dropLast_concat, fields_append_cons]
    rfl
  · refine ⟨first, front, [], ?_, by simp, hwithin⟩
    rw [← hfront, folderText, if_neg hlast, List.append_nil]

theorem isAbsolute_within (hroot : root ≠ []) (hplace : IsBelow place) :
    (root.within place).isAbsolute = root.isAbsolute := by
  obtain ⟨c, rest, rfl⟩ := List.exists_cons_of_ne_nil hroot
  rw [within_eq hroot hplace, folderText]
  by_cases hlast : (c :: rest).getLast? = some slash
  · rw [if_pos hlast]
    cases rest with
    | nil =>
      obtain rfl : c = slash := by simpa using hlast
      rfl
    | cons d rest => rfl
  · rw [if_neg hlast]
    rfl

/-- A path that does not start at the root begins with a part that is not empty. -/
theorem ne_nil_of_fields_eq_cons {first : FileName} {rest : List FileName} (hroot : root ≠ [])
    (habsolute : root.isAbsolute = false) (h : root.fields = first :: rest) : first ≠ [] := by
  have hrow : ofFields (first :: rest) = root := h ▸ ofFields_fields root
  rintro rfl
  cases rest with
  | nil => exact hroot hrow.symm
  | cons next rest =>
    rw [← hrow, ofFields_cons_cons] at habsolute
    cases habsolute

/-- A place below a path starts where the path starts. -/
theorem start_within (hroot : root ≠ []) (hplace : IsBelow place) :
    ∃ front idle, root.start.2 = front ++ idle ∧ (∀ part ∈ idle, isIdle part = true) ∧
      (root.within place).start = (root.start.1, front ++ place) ∧
      (root.start.1 = .implied → ∃ part ∈ front, isIdle part = false) := by
  obtain ⟨first, front, idle, hfields, hidle, hwithin⟩ := fields_within hroot hplace
  have habsolute := isAbsolute_within hroot hplace
  simp only [start, hfields, hwithin, habsolute, List.cons_append]
  cases hstart : root.isAbsolute with
  | true => exact ⟨front, idle, rfl, hidle, rfl, by simp⟩
  | false =>
    by_cases hhere : first = [dot]
    · exact ⟨front, idle, by simp [hhere], hidle, by simp [hhere], by simp [hhere]⟩
    · have hfirst : first ≠ [] := ne_nil_of_fields_eq_cons hroot hstart hfields
      refine ⟨first :: front, idle, by simp [hhere], hidle, by simp [hhere], fun _ => ?_⟩
      exact ⟨first, List.mem_cons_self, by simp [isIdle, hfirst, hhere]⟩

/-! ## Reading such paths -/

/-- The names of a path are found at the front of its parts, and what is left after them
is only passed over. -/
theorem exists_dropNames (front : List FileName) (hplace : place.dropWhile isIdle = place) :
    ∃ rest, dropNames (front.filter (!isIdle ·)) (front ++ place) = some rest ∧
      rest.dropWhile isIdle = place := by
  induction front with
  | nil => exact ⟨place, rfl, hplace⟩
  | cons part front ih =>
    obtain ⟨rest, hdrop, hrest⟩ := ih
    cases hpart : isIdle part with
    | true =>
      rw [List.filter_cons_of_neg (by simp [hpart]), List.cons_append]
      cases hnames : front.filter (!isIdle ·) with
      | nil =>
        rw [hnames, dropNames, Option.some.injEq] at hdrop
        exact ⟨_, rfl, by rw [List.dropWhile_cons_of_pos hpart, hdrop, hrest]⟩
      | cons name names =>
        refine ⟨rest, ?_, hrest⟩
        rw [← hdrop, hnames, dropNames, dropNames, List.dropWhile_cons_of_pos hpart]
    | false =>
      refine ⟨rest, ?_, hrest⟩
      rw [List.filter_cons_of_pos (by simp [hpart]), List.cons_append, dropNames,
        List.dropWhile_cons_of_neg (by simp [hpart])]
      simpa using hdrop

theorem dropWhile_isIdle_names (hnames : ∀ name ∈ place, IsEntryName name) :
    place.dropWhile isIdle = place := by
  cases place with
  | nil => rfl
  | cons name place =>
    rw [List.dropWhile_cons_of_neg]
    simp [(hnames name List.mem_cons_self).isIdle_eq]

theorem dropIdleEnd_place (hplace : IsBelow place) : dropIdleEnd place = place := by
  have hnames : ∀ name ∈ place.reverse, IsEntryName name := by
    simpa using hplace.names
  rw [dropIdleEnd, dropWhile_isIdle_names hnames, List.reverse_reverse]

theorem filter_place (hplace : IsBelow place) : place.filter (!isIdle ·) = place :=
  List.filter_eq_self.2 fun name hname => by simp [(hplace.names name hname).isIdle_eq]

/-- A place below a path is what is left of the path to it. -/
theorem below?_within (hroot : root ≠ []) (hplace : IsBelow place) :
    below? root (root.within place) = some (ofFields place) := by
  obtain ⟨front, idle, hparts, hidle, hwithin, himplied⟩ := start_within hroot hplace
  have hidle' : idle.filter (!isIdle ·) = [] :=
    List.filter_eq_nil_iff.2 fun part hpart => by simp [hidle part hpart]
  have hnames : root.start.2.filter (!isIdle ·) = front.filter (!isIdle ·) := by
    rw [hparts, List.filter_append, hidle', List.append_nil]
  obtain ⟨rest, hdrop, hrest⟩ := exists_dropNames front (dropWhile_isIdle_names hplace.names)
  have hnamed : ¬(root.start.1 = .implied ∧ (front.filter (!isIdle ·)).isEmpty = true) := by
    rintro ⟨hstart, hempty⟩
    obtain ⟨part, hpart, hname⟩ := himplied hstart
    rw [List.isEmpty_iff, List.filter_eq_nil_iff] at hempty
    exact hempty part hpart (by simp [hname])
  simp only [below?, hwithin, hnames]
  rw [if_neg hnamed, if_pos trivial, hdrop, Option.map_some, hrest, dropIdleEnd_place hplace]

/-- The last name of a path to a place is the last name of the place. -/
theorem name?_within (hroot : root ≠ []) (hplace : IsBelow place) :
    (root.within place).name? = place.getLast? := by
  obtain ⟨front, idle, -, -, hwithin, -⟩ := start_within hroot hplace
  have hlast := List.getLast?_eq_some_getLast hplace.ne_nil
  rw [name?, hwithin, List.filter_append, filter_place hplace, List.getLast?_append, hlast,
    Option.some_or]
  exact if_neg (hplace.names _ (List.getLast_mem hplace.ne_nil)).ne_up

/-- Nothing is left of a path below itself. -/
theorem below?_self (h : root.name? = some name) : below? root root = some [] := by
  have hnamed : ¬(root.start.1 = .implied ∧ (root.start.2.filter (!isIdle ·)).isEmpty = true) := by
    rintro ⟨-, hempty⟩
    rw [name?, List.isEmpty_iff.1 hempty] at h
    cases h
  have hnil : ([] : Place).dropWhile isIdle = [] := rfl
  obtain ⟨rest, hdrop, hrest⟩ := exists_dropNames root.start.2 hnil
  rw [List.append_nil] at hdrop
  simp only [below?]
  rw [if_neg hnamed, if_pos trivial, hdrop, Option.map_some, hrest]
  rfl

theorem start_ofFields (hplace : IsBelow place) :
    start (ofFields place) = (.implied, place) := by
  obtain ⟨name, place, rfl⟩ := List.exists_cons_of_ne_nil hplace.ne_nil
  have hname : IsEntryName name := hplace.names name List.mem_cons_self
  have habsolute : isAbsolute (ofFields (name :: place)) = false := by
    cases place with
    | nil => simpa using hname.isAbsolute_append []
    | cons next place =>
      rw [ofFields_cons_cons]
      exact hname.isAbsolute_append _
  rw [start, fields_ofFields hplace, habsolute]
  exact if_neg hname.ne_here

/-- The extension of the last name is taken off. -/
theorem withoutExtension_ofFields {folders : Place} {name before after : FileName}
    (hplace : IsBelow (folders ++ [name])) (hsplit : splitName name = (before, some after))
    (hbefore : isIdle before = false) :
    withoutExtension (ofFields (folders ++ [name])) =
      ofFields (folders ++ [before]) := by
  have hname : IsEntryName name := hplace.names name (by simp)
  have hstem : stem? (ofFields (folders ++ [name])) = some before := by
    rw [stem?, name?, start_ofFields hplace, filter_place hplace, List.getLast?_concat]
    simp only [if_neg hname.ne_up, Option.map_some, hsplit]
  rw [withoutExtension, hstem]
  simp only [hbefore, Bool.false_eq_true, if_false]
  rw [fields_ofFields hplace, dropIdleEnd_place hplace, List.dropLast_concat]

/-- The names that a file below a path goes by.  A file that is the path itself goes by
its last name. -/
def namesBelow (root : Path) (place : Place) : Place :=
  if place = [] then root.name?.toList else place

/-- What is read of these names. -/
def readingBelow (root : Path) (place : Place) : Text :=
  (ofFields (root.namesBelow place)).display

theorem getLast?_namesBelow_nil (root : Path) : (root.namesBelow []).getLast? = root.name? := by
  rw [namesBelow, if_pos rfl]
  cases root.name? <;> rfl

theorem namesBelow_eq (h : place ≠ []) : root.namesBelow place = place :=
  if_neg h

theorem name?_within_eq (hroot : root ≠ []) (hnames : ∀ name ∈ place, IsEntryName name) :
    (root.within place).name? = (root.namesBelow place).getLast? := by
  by_cases hplace : place = []
  · rw [hplace, getLast?_namesBelow_nil]
    rfl
  · rw [namesBelow_eq hplace, name?_within hroot ⟨hplace, hnames⟩]

end Path

/-! ## The root folder -/

section Root

variable {entries : List (FileName × Node)} {name : FileName} (here : Place)

theorem resolve_root : World.resolve ⟨.folder entries, here⟩ [Path.slash] = .ok [] := by
  have hfields : Path.fields [Path.slash] = [[], []] := rfl
  rw [World.resolve, hfields]
  simp [follow, Node.at?, Path.isIdle, Path.isAbsolute]

theorem fields_root (hname : IsEntryName name) :
    Path.fields (Path.slash :: name) = [[], name] := by
  have hrest : Path.fields name = [name] := List.splitOn_eq_singleton hname.slash_notMem
  show Path.fields ([] ++ Path.slash :: name) = _
  rw [Path.fields_append_cons, hrest]
  rfl

theorem resolve_file {content : List UInt8} (hname : IsEntryName name)
    (h : entries.lookup name = some (.file content)) :
    World.resolve ⟨.folder entries, here⟩ (Path.slash :: name) = .ok [name] := by
  have hroot : Path.isIdle [] = true := rfl
  rw [World.resolve, fields_root hname]
  simp [follow, Node.at?, Path.isAbsolute, hroot, hname.isIdle_eq, hname.ne_up, h]

theorem resolve_absent (hname : IsEntryName name) (h : entries.lookup name = none) :
    World.resolve ⟨.folder entries, here⟩ (Path.slash :: name) = .error .notFound := by
  have hroot : Path.isIdle [] = true := rfl
  rw [World.resolve, fields_root hname]
  simp [follow, Node.at?, Path.isAbsolute, hroot, hname.isIdle_eq, hname.ne_up, h]

end Root

end Files

/-! ## Fixtures -/

open Files

/-- Whether a file with this name is a fixture. -/
def IsFixtureName (name : FileName) : Prop :=
  Path.ofText ".json".toList <:+ name ∧
    ¬Path.ofText ['_'] <+: name ∧ ¬Path.ofText ['.'] <+: name

/-- A name has the extension when something stands before it. -/
theorem splitName_eq_json {name before : FileName} :
    Path.splitName name = (before, some (Path.ofText "json".toList)) ↔
      before ≠ [] ∧ name = before ++ Path.ofText ".json".toList := by
  have hform : Path.ofText ".json".toList = Path.dot :: Path.ofText "json".toList := rfl
  rw [hform]
  constructor
  · intro h
    rw [Path.splitName] at h
    split at h
    · cases h
    · rename_i hempty
      rw [Prod.mk.injEq] at h
      obtain ⟨rfl, hlast⟩ := h
      obtain ⟨front, hparts⟩ := List.getLast?_eq_some_iff.1 hlast
      have hrow : List.intercalate [Path.dot] (name.splitOn Path.dot) = name :=
        List.intercalate_splitOn Path.dot
      rw [hparts, List.dropLast_concat] at hempty ⊢
      have hfront : front ≠ [] := by
        rintro rfl
        exact hempty rfl
      rw [hparts, Text.intercalate_concat _ hfront] at hrow
      exact ⟨by simpa using hempty, hrow.symm⟩
  · rintro ⟨hne, rfl⟩
    have hparts : (before ++ Path.dot :: Path.ofText "json".toList).splitOn Path.dot =
        before.splitOn Path.dot ++ [Path.ofText "json".toList] := by
      rw [List.splitOn_append_cons_of_beq _ _ (beq_self_eq_true _)]
      rfl
    rw [Path.splitName, hparts, List.dropLast_concat, List.intercalate_splitOn,
      List.getLast?_concat, if_neg]
    simpa using hne

theorem IsFixtureName.exists_append {name : FileName} (h : IsFixtureName name) :
    ∃ before, name = before ++ Path.ofText ".json".toList ∧ Path.isIdle before = false ∧
      Path.splitName name = (before, some (Path.ofText "json".toList)) := by
  obtain ⟨⟨before, rfl⟩, -, hdot⟩ := h
  have hne : before ≠ [] := by
    rintro rfl
    exact hdot (by decide)
  refine ⟨before, rfl, ?_, splitName_eq_json.2 ⟨hne, rfl⟩⟩
  have hhere : before ≠ [Path.dot] := by
    rintro rfl
    exact hdot (by decide)
  simp [Path.isIdle, hne, hhere]

/-- The character that keeps a file out is seen in the first byte of its name. -/
theorem notHidden_iff (name : FileName) :
    (!(Utf8.decodeLossy name).head?.any fun c => c == '_' || c == '.') = true ↔
      ¬Path.ofText ['_'] <+: name ∧ ¬Path.ofText ['.'] <+: name := by
  rw [Path.ofText, Path.ofText, ← Utf8.prefix_decodeLossy_iff (by decide),
    ← Utf8.prefix_decodeLossy_iff (by decide)]
  cases Utf8.decodeLossy name with
  | nil => simp
  | cons c t =>
    simp only [List.head?_cons, Option.any_some, List.cons_prefix_cons, List.nil_prefix,
      and_true, eq_comm (b := c), Bool.not_eq_true', Bool.or_eq_false_iff, beq_eq_false_iff_ne,
      ne_eq]

/-- A file is a fixture by its name alone. -/
theorem isFixture_iff {p : Path} :
    isFixture p = true ↔ ∃ name, p.name? = some name ∧ IsFixtureName name := by
  rw [isFixture, Path.extension?]
  cases hname : p.name? with
  | none => simp
  | some name =>
    rw [Bool.and_eq_true, Option.bind_some, Option.any_some, beq_iff_eq, notHidden_iff]
    simp only [Option.some.injEq, exists_eq_left']
    constructor
    · rintro ⟨hext, hstart⟩
      obtain ⟨-, hbefore⟩ := splitName_eq_json.1 (Prod.ext rfl hext)
      exact ⟨⟨_, hbefore.symm⟩, hstart⟩
    · intro h
      obtain ⟨before, -, -, hsplit⟩ := h.exists_append
      exact ⟨by rw [hsplit], h.2⟩

theorem isFixture_within {root : Path} {place : Place} (hroot : root ≠ [])
    (hnames : ∀ name ∈ place, IsEntryName name) :
    isFixture (root.within place) = true ↔
      ∃ name, (root.namesBelow place).getLast? = some name ∧ IsFixtureName name := by
  rw [isFixture_iff, Path.name?_within_eq hroot hnames]

theorem display_append_json (p : Path) :
    p.display ++ ".json".toList = (p ++ Path.ofText ".json".toList).display :=
  (Utf8.decodeLossy_append_encode (by decide) p "json".toList).symm

/-- The suite of a fixture below a path is called by the place without its extension. -/
theorem name_ofPath_below {root : Path} {folders : Place} {name : FileName} (hroot : root ≠ [])
    (hplace : IsBelow (folders ++ [name])) (hname : IsFixtureName name) :
    (Suite.ofPath (root.within (folders ++ [name])) root).name ++ ".json".toList =
      (Path.ofFields (folders ++ [name])).display := by
  obtain ⟨before, hbefore, hidle, hsplit⟩ := hname.exists_append
  have hrow : Path.ofFields (folders ++ [name]) =
      Path.ofFields (folders ++ [before]) ++ Path.ofText ".json".toList := by
    rw [hbefore, Path.ofFields, Text.intercalate_concat_append]
    rfl
  obtain ⟨b, rest, hcons⟩ : ∃ b rest, Path.ofFields (folders ++ [name]) = b :: rest :=
    List.exists_cons_of_ne_nil (by rw [hrow]; simp [Path.ofText])
  rw [Suite.ofPath, Path.below?_within hroot hplace, hcons]
  dsimp only
  rw [← hcons, Path.withoutExtension_ofFields hplace hsplit hidle, display_append_json, hrow]

/-- The suite of a fixture that is the path itself is called by its own name. -/
theorem name_ofPath_self {root : Path} {name : FileName} (hown : root.name? = some name)
    (hname : IsFixtureName name) :
    (Suite.ofPath root root).name ++ ".json".toList = Utf8.decodeLossy name := by
  obtain ⟨before, hbefore, -, hsplit⟩ := hname.exists_append
  rw [Suite.ofPath, Path.below?_self hown]
  dsimp only
  rw [Path.stem?, hown, Option.map_some, hsplit, Option.getD_some, display_append_json, ← hbefore]
  rfl

/-- The suite of a fixture is called by what is read of its names, without the extension. -/
theorem name_ofPath_within {root : Path} {place : Place} (hroot : root ≠ [])
    (hnames : ∀ name ∈ place, IsEntryName name)
    (hfixture : ∃ name, (root.namesBelow place).getLast? = some name ∧ IsFixtureName name) :
    (Suite.ofPath (root.within place) root).name ++ ".json".toList = root.readingBelow place := by
  obtain ⟨name, hlast, hname⟩ := hfixture
  by_cases hplace : place = []
  · subst hplace
    rw [Path.getLast?_namesBelow_nil] at hlast
    rw [Path.readingBelow, Path.namesBelow, if_pos rfl, hlast, Option.toList_some,
      Path.ofFields_singleton]
    exact name_ofPath_self hlast hname
  · rw [Path.namesBelow_eq hplace] at hlast
    obtain ⟨folders, rfl⟩ := List.getLast?_eq_some_iff.1 hlast
    rw [Path.readingBelow, Path.namesBelow_eq hplace]
    exact name_ofPath_below hroot ⟨hplace, hnames⟩ hname

end UriTemplate
