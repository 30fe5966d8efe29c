import Mathlib.Data.List.Nodup
import Mathlib.Data.List.Perm.Basic
import UriTemplate.Proofs.ByteOrder
import UriTemplate.Proofs.DistinctKeys
import UriTemplate.Proofs.FixturePaths

/-!
# Fixtures that are found

The fixtures of a tree are found by a walk over all that is in it, and put in the order of
the names of their suites.  A suite is called by what is read of the names that its file
goes by.  Where these are texts, the suites have different names and their order is settled.
Files whose names are no texts can be read alike: then they stand in the order in which the
folders list them, and that is all that the suites take from it.

* `Files.Node.Plain.mem_files` and `Files.Node.Plain.nodup_files`: the files of a tree
  without links, each once, by induction on the tree.
* `walk_eq`: a walk finds the files, by induction on the tree.
* `Finds.perm` and `Finds.names_eq`: the suites and the list of their names depend on the
  places of the fixtures only.
* `Finds.unique`: so does the order of the suites, when no two files are read alike.
* `discover_in_order`: what is found in a tree without links.
-/

namespace UriTemplate

namespace Files.Node

/-! ## Trees without links -/

/-- Whether a tree holds files and folders only, as a file system does: the entries of
a folder have different names. -/
inductive Plain : Node → Prop where
  | file (content : List UInt8) : Plain (file content)
  | folder {entries : List (FileName × Node)} (hnodup : (entries.map Prod.fst).Nodup)
    (hnames : ∀ e ∈ entries, IsEntryName e.1) (hentries : ∀ e ∈ entries, e.2.Plain) :
    Plain (folder entries)

/-- The places of the files of a tree, in the order of the entries. -/
def files : Node → List Place
  | file _ => [[]]
  | folder entries => filesIn entries
  | link _ => []
where
  /-- The places of the files of the entries of a folder. -/
  filesIn : List (FileName × Node) → List Place
    | [] => []
    | (name, node) :: rest => (files node).map (name :: ·) ++ filesIn rest

theorem files_folder (entries : List (FileName × Node)) :
    (folder entries).files = entries.flatMap fun e => e.2.files.map (e.1 :: ·) := by
  rw [files]
  induction entries with
  | nil => rfl
  | cons e entries ih =>
    rw [files.filesIn, ih, List.flatMap_cons]

variable {tree : Node} {entries : List (FileName × Node)} {place : Place}

theorem at?_folder_cons (name : FileName) :
    (folder entries).at? (name :: place) = (entries.lookup name).bind (·.at? place) := rfl

theorem Plain.mem_files (h : tree.Plain) :
    place ∈ tree.files ↔ ∃ content, tree.at? place = some (.file content) := by
  induction h generalizing place with
  | file content =>
    cases place with
    | nil => simp [files, at?]
    | cons name place => simp [files, at?, child?]
  | folder hnodup hnames hentries ih =>
    rw [files_folder]
    cases place with
    | nil => simp [at?]
    | cons name place =>
      rw [at?_folder_cons]
      simp only [List.mem_flatMap, List.mem_map, List.cons.injEq, Option.bind_eq_some_iff]
      constructor
      · rintro ⟨⟨name, node⟩, he, place, hplace, rfl, rfl⟩
        obtain ⟨content, hcontent⟩ := (ih _ he).1 hplace
        exact ⟨content, node, (Json.lookup_eq_some_iff hnodup).2 he, hcontent⟩
      · rintro ⟨content, node, hnode, hcontent⟩
        have he := (Json.lookup_eq_some_iff hnodup).1 hnode
        exact ⟨_, he, place, (ih _ he).2 ⟨content, hcontent⟩, rfl, rfl⟩

theorem Plain.nodup_files (h : tree.Plain) : tree.files.Nodup := by
  induction h with
  | file content => exact List.nodup_singleton []
  | folder hnodup hnames hentries ih =>
    rw [files_folder, List.nodup_flatMap]
    refine ⟨fun e he => (ih e he).map fun _ _ heq => List.cons_inj_right _ |>.1 heq, ?_⟩
    refine (List.pairwise_map.1 hnodup).imp fun {e e'} hne => ?_
    intro place hplace hplace'
    obtain ⟨p, -, rfl⟩ := List.mem_map.1 hplace
    obtain ⟨p', -, heq⟩ := List.mem_map.1 hplace'
    exact hne (List.cons.inj heq).1.symm

theorem Plain.isEntryName_of_mem_files (h : tree.Plain) (hplace : place ∈ tree.files) :
    ∀ name ∈ place, IsEntryName name := by
  induction h generalizing place with
  | file content =>
    obtain rfl : place = [] := List.mem_singleton.1 hplace
    simp
  | folder hnodup hnames hentries ih =>
    rw [files_folder, List.mem_flatMap] at hplace
    obtain ⟨e, he, hplace⟩ := hplace
    obtain ⟨p, hp, rfl⟩ := List.mem_map.1 hplace
    exact List.forall_mem_cons.2 ⟨hnames e he, ih e he hp⟩

/-- The files of a folder are below it. -/
theorem Plain.isBelow (h : (Node.folder entries).Plain)
    (hplace : place ∈ (Node.folder entries).files) : IsBelow place := by
  refine ⟨?_, h.isEntryName_of_mem_files hplace⟩
  rw [files_folder, List.mem_flatMap] at hplace
  obtain ⟨e, -, hplace⟩ := hplace
  obtain ⟨p, -, rfl⟩ := List.mem_map.1 hplace
  exact List.cons_ne_nil _ _

end Files.Node

/-! ## Walks -/

open Files

theorem walkEntries_eq {w : World} {depth : Nat} {ancestors : List Ancestor} {place : Place}
    {path : Path} {entries : List (FileName × Node)}
    (h : ∀ e ∈ entries, ∀ place path, walk w depth ancestors place path e.2 =
      .ok (e.2.files.map path.within)) :
    walkEntries w depth ancestors place path entries =
      .ok (entries.flatMap fun e => (e.2.files.map (e.1 :: ·)).map path.within) := by
  induction entries with
  | nil =>
    rw [walkEntries]
    rfl
  | cons e entries ih =>
    obtain ⟨hfirst, hrest⟩ := List.forall_mem_cons.1 h
    rw [walkEntries, hfirst, ih hrest, List.flatMap_cons, List.map_map]
    rfl

/-- A walk of a tree without links finds its files. -/
theorem walk_eq {tree : Node} (h : tree.Plain) (w : World) (depth : Nat)
    (ancestors : List Ancestor) (place : Place) (path : Path) :
    walk w depth ancestors place path tree = .ok (tree.files.map path.within) := by
  induction h generalizing ancestors place path with
  | file content =>
    rw [walk]
    rfl
  | folder hnodup hnames hentries ih =>
    rw [walk, walkEntries_eq fun e he place path => ih e he _ place path, Node.files_folder,
      List.map_flatMap]

/-! ## Suites -/

/-- Whether a place of a tree is the one of a fixture file, in a walk from a path. -/
structure Files.Node.HoldsFixture (root : Path) (tree : Node) (place : Place) : Prop where
  file : ∃ content, tree.at? place = some (.file content)
  fixture : ∃ name, (root.namesBelow place).getLast? = some name ∧ IsFixtureName name

theorem Files.Node.Plain.holdsFixture_iff {root : Path} {tree : Node} {place : Place}
    (h : tree.Plain) :
    tree.HoldsFixture root place ↔ place ∈ tree.files ∧
      ∃ name, (root.namesBelow place).getLast? = some name ∧ IsFixtureName name := by
  rw [h.mem_files]
  exact ⟨fun hholds => ⟨hholds.file, hholds.fixture⟩, fun hboth => ⟨hboth.1, hboth.2⟩⟩

/-- Whether no two fixture files of a tree are read alike. -/
def Files.Node.ToldApart (root : Path) (tree : Node) : Prop :=
  ∀ p q, tree.HoldsFixture root p → tree.HoldsFixture root q →
    root.readingBelow p = root.readingBelow q → p = q

/-- Whether a suite is the one of the file at a place below a path. -/
structure Suite.IsAt (root : Path) (place : Place) (s : Suite) : Prop where
  path_eq : s.path = root.within place
  /-- It is called by what is read, without the extension. -/
  name_eq : s.name ++ ".json".toList = root.readingBelow place

/-- Whether suites are those of the fixture files of a tree, one for each, in the order
of the bytes of their names.  The order in which folders list their entries is kept where
names are equal, and has no other part in this. -/
structure Finds (root : Path) (tree : Node) (places : List Place) (suites : List Suite) :
    Prop where
  mem_iff : ∀ place, place ∈ places ↔ tree.HoldsFixture root place
  nodup : places.Nodup
  suites_at : List.Forall₂ (Suite.IsAt root) places suites
  ascending : (suites.map fun s => Utf8.encode s.name).Pairwise fun a b => ¬b < a
  listed : ∀ p ∈ places, ∀ q ∈ places, root.readingBelow p = root.readingBelow q →
    [p, q].Sublist tree.files → [p, q].Sublist places

/-- A place has one suite. -/
theorem Suite.IsAt.unique {root : Path} {place : Place} {s t : Suite} (hs : s.IsAt root place)
    (ht : t.IsAt root place) : s = t := by
  obtain ⟨path, name⟩ := s
  obtain ⟨path', name'⟩ := t
  have hname : name ++ ".json".toList = name' ++ ".json".toList := hs.name_eq.trans ht.name_eq.symm
  rw [Suite.mk.injEq]
  exact ⟨hs.path_eq.trans ht.path_eq.symm, List.append_cancel_right hname⟩

namespace Finds

variable {root : Path} {tree tree' : Node} {places places' : List Place}
  {suites suites' : List Suite}

/-- Trees with fixture files at the same places have the same suites. -/
theorem perm (h : Finds root tree places suites) (h' : Finds root tree' places' suites')
    (hsame : ∀ place, tree'.HoldsFixture root place ↔ tree.HoldsFixture root place) :
    suites'.Perm suites := by
  have hmem (place : Place) : place ∈ places' ↔ place ∈ places := by
    rw [h.mem_iff, h'.mem_iff, hsame]
  have hplaces : places'.Perm places := (List.perm_ext_iff_of_nodup h'.nodup h.nodup).2 hmem
  exact List.rel_perm_imp (fun _ _ _ hs ht => hs.unique ht) h'.suites_at h.suites_at hplaces

theorem names_ascending (h : Finds root tree places suites) :
    (suites.map Suite.name).Pairwise fun s t => ¬t < s :=
  List.pairwise_map.2 ((List.pairwise_map.1 h.ascending).imp fun hle hlt =>
    hle (Utf8.encode_lt_encode hlt))

/-- The names of the suites come in one order only. -/
theorem names_eq (h : Finds root tree places suites) (h' : Finds root tree' places' suites')
    (hperm : suites'.Perm suites) : suites'.map Suite.name = suites.map Suite.name := by
  refine (hperm.map Suite.name).eq_of_pairwise ?_ h'.names_ascending h.names_ascending
  intro s t _ _ hle hle'
  exact List.le_antisymm (List.not_lt.1 hle) (List.not_lt.1 hle')

/-- Suites have different names when no two files are read alike. -/
theorem names_nodup (h : Finds root tree places suites) (hapart : tree.ToldApart root) :
    (suites.map Suite.name).Nodup := by
  have hnamed : List.Forall₂
      (fun p name => tree.HoldsFixture root p ∧ name ++ ".json".toList = root.readingBelow p)
      places (suites.map Suite.name) :=
    List.forall₂_map_right_iff.2 ((List.forall₂_and_left _ _).2
      ⟨fun p => (h.mem_iff p).1, h.suites_at.imp fun _ _ hat => hat.name_eq⟩)
  refine (List.rel_nodup ⟨?_, ?_⟩ hnamed).1 h.nodup
  · rintro p q name ⟨hp, hname⟩ ⟨hq, hname'⟩
    exact hapart p q hp hq (hname.symm.trans hname')
  · rintro p name name' ⟨-, hname⟩ ⟨-, hname'⟩
    exact List.append_cancel_right (hname.trans hname'.symm)

/-- Then the bytes of the names grow. -/
theorem increasing (h : Finds root tree places suites) (hapart : tree.ToldApart root) :
    (suites.map fun s => Utf8.encode s.name).Pairwise (· < ·) := by
  have hsorted := List.pairwise_map.1 h.names_ascending
  have hnodup := List.pairwise_map.1 (h.names_nodup hapart)
  refine List.pairwise_map.2 ((hsorted.and hnodup).imp ?_)
  intro s t hst
  exact Utf8.encode_lt_encode
    ((List.le_iff_lt_or_eq.1 (List.not_lt.1 hst.1)).resolve_right hst.2)

/-- And the suites come in one order only. -/
theorem unique (h : Finds root tree places suites) (h' : Finds root tree' places' suites')
    (hperm : suites'.Perm suites) (hapart : tree.ToldApart root) : suites' = suites := by
  have hinj := List.inj_on_of_nodup_map (h.names_nodup hapart)
  refine hperm.eq_of_pairwise ?_ (List.pairwise_map.1 h'.names_ascending)
    (List.pairwise_map.1 h.names_ascending)
  intro s t hs ht hle hle'
  exact hinj (hperm.mem_iff.1 hs) ht (List.le_antisymm (List.not_lt.1 hle) (List.not_lt.1 hle'))

end Finds

/-- Files are told apart by the bytes of their names. -/
theorem Files.Node.Plain.eq_of_ofFields_eq {root : Path} {tree : Node} {p q : Place}
    (h : tree.Plain) (hp : p ∈ tree.files) (hq : q ∈ tree.files)
    (hnames : Path.ofFields (root.namesBelow p) = Path.ofFields (root.namesBelow q)) : p = q := by
  have hplain := h
  cases h with
  | file content => rw [List.mem_singleton.1 hp, List.mem_singleton.1 hq]
  | folder _ _ _ =>
    have hp' := hplain.isBelow hp
    have hq' := hplain.isBelow hq
    rw [Path.namesBelow_eq hp'.ne_nil, Path.namesBelow_eq hq'.ne_nil] at hnames
    rw [← Path.fields_ofFields hp', hnames, Path.fields_ofFields hq']

/-- Files whose names are texts are read as different texts. -/
theorem Files.Node.Plain.toldApart_of_text {root : Path} {tree : Node} (h : tree.Plain)
    (htext : ∀ p, tree.HoldsFixture root p →
      ∃ t, Path.ofFields (root.namesBelow p) = Path.ofText t) : tree.ToldApart root := by
  intro p q hp hq hread
  obtain ⟨t, ht⟩ := htext p hp
  obtain ⟨u, hu⟩ := htext q hq
  have hdisplay (t : Text) : (Path.ofText t).display = t := Utf8.decodeLossy_encode t
  rw [Path.readingBelow, Path.readingBelow, ht, hu, hdisplay, hdisplay] at hread
  have hnames : Path.ofFields (root.namesBelow p) = Path.ofFields (root.namesBelow q) := by
    rw [ht, hu, hread]
  exact h.eq_of_ofFields_eq (h.mem_files.2 hp.file) (h.mem_files.2 hq.file) hnames

/-! ## Discovery -/

/-- The suite of the file at a place below a path. -/
def suiteAt (root : Path) (place : Place) : Suite :=
  Suite.ofPath (root.within place) root

section Discover

variable {w : World} {root : Path} {place : Place} {tree : Node}

theorem target_root (entries : List (FileName × Node)) (here : Place) :
    target ⟨.folder entries, here⟩ [Path.slash] = .ok ([], .folder entries) := by
  rw [target, resolve_root]
  rfl

theorem canonical_root (entries : List (FileName × Node)) (here : Place) :
    World.canonical ⟨.folder entries, here⟩ [Path.slash] = [Path.slash] := by
  rw [World.canonical, resolve_root]
  rfl

theorem ne_nil_of_target (h : target w root = .ok (place, tree)) : root ≠ [] := by
  rintro rfl
  simp [target, World.resolve] at h

/-- The places of the fixture files of a tree, in the order of the names of their suites. -/
def fixturePlaces (root : Path) (tree : Node) : List Place :=
  (tree.files.filter fun place => isFixture (root.within place)).mergeSort
    fun p q => !decide ((suiteAt root q).name < (suiteAt root p).name)

theorem discover_eq (htarget : target w root = .ok (place, tree)) (hplain : tree.Plain) :
    discover w root = .ok ((fixturePlaces root tree).map (suiteAt root)) := by
  have hsuites : (fixturePlaces root tree).map (suiteAt root) =
      ((tree.files.filter fun place => isFixture (root.within place)).map
        (suiteAt root)).mergeSort fun a b => !decide (b.name < a.name) :=
    List.map_mergeSort fun _ _ _ _ => rfl
  rw [discover, htarget, hsuites]
  simp only [bind, Except.bind, walk_eq hplain, List.filter_map, List.map_map]
  rfl

/-- A tree that lists its fixtures in the order of the names is found as it is listed. -/
theorem discover_eq_of_pairwise {suites : List Suite} (htarget : target w root = .ok (place, tree))
    (hplain : tree.Plain)
    (hsuites : (tree.files.filter fun place => isFixture (root.within place)).map (suiteAt root) =
      suites)
    (hsorted : suites.Pairwise fun a b => ¬b.name < a.name) : discover w root = .ok suites := by
  subst hsuites
  rw [discover_eq htarget hplain, fixturePlaces, List.mergeSort_of_pairwise]
  exact (List.pairwise_map.1 hsorted).imp fun h => by simpa using h

theorem mem_fixturePlaces_iff :
    place ∈ fixturePlaces root tree ↔
      place ∈ tree.files ∧ isFixture (root.within place) = true := by
  rw [fixturePlaces, List.mem_mergeSort, List.mem_filter]

theorem mem_fixturePlaces (hroot : root ≠ []) (hplain : tree.Plain) :
    place ∈ fixturePlaces root tree ↔ tree.HoldsFixture root place := by
  rw [mem_fixturePlaces_iff, hplain.holdsFixture_iff]
  exact and_congr_right fun hmem =>
    isFixture_within hroot (hplain.isEntryName_of_mem_files hmem)

theorem suiteAt_isAt (hroot : root ≠ []) (hplain : tree.Plain)
    (h : tree.HoldsFixture root place) : (suiteAt root place).IsAt root place := by
  obtain ⟨hmem, hname⟩ := hplain.holdsFixture_iff.1 h
  exact ⟨rfl, name_ofPath_within hroot (hplain.isEntryName_of_mem_files hmem) hname⟩

theorem finds_fixturePlaces (hroot : root ≠ []) (hplain : tree.Plain) :
    Finds root tree (fixturePlaces root tree) ((fixturePlaces root tree).map (suiteAt root)) := by
  have hat : ∀ place ∈ fixturePlaces root tree, (suiteAt root place).IsAt root place :=
    fun place hplace => suiteAt_isAt hroot hplain ((mem_fixturePlaces hroot hplain).1 hplace)
  constructor
  case mem_iff => exact fun place => mem_fixturePlaces hroot hplain
  case nodup => exact (List.mergeSort_perm _ _).nodup_iff.2 (hplain.nodup_files.filter _)
  case suites_at =>
    rw [List.forall₂_map_right_iff, List.forall₂_same]
    exact hat
  case ascending =>
    have hsorted : ((fixturePlaces root tree).map (suiteAt root)).Pairwise
        fun a b => ¬b.name < a.name :=
      List.pairwise_map.2 (Text.pairwise_mergeSort (fun place => (suiteAt root place).name) _)
    exact List.pairwise_map.2 (hsorted.imp fun hle hlt => hle (Utf8.encode_lt_encode_iff.1 hlt))
  case listed =>
    intro p hp q hq hread hfiles
    obtain ⟨hp', hq'⟩ : isFixture (root.within p) = true ∧ isFixture (root.within q) = true :=
      ⟨(mem_fixturePlaces_iff.1 hp).2, (mem_fixturePlaces_iff.1 hq).2⟩
    have hname : (suiteAt root p).name = (suiteAt root q).name :=
      List.append_cancel_right (((hat p hp).name_eq.trans hread).trans (hat q hq).name_eq.symm)
    have hfiltered := hfiles.filter fun place => isFixture (root.within place)
    simp only [List.filter_cons, hp', hq', List.filter_nil, if_true] at hfiltered
    exact Text.pair_sublist_mergeSort (fun place => (suiteAt root place).name) hname hfiltered

end Discover

/-- In a tree without links, each fixture file is found once, and the suites come in the
order of the bytes of their names.  Wherever fixture files are at the same places, the same
suites are found and their names come in the same order; when no two files are read alike,
as they never are where names are texts, the names differ and the order of the suites is the
same too. -/
theorem discover_in_order {w : World} {root : Path} {place : Place} {tree : Node}
    (htarget : target w root = .ok (place, tree)) (hplain : tree.Plain) :
    ∃ places suites, discover w root = .ok suites ∧ Finds root tree places suites ∧
      (tree.ToldApart root → (suites.map Suite.name).Nodup ∧
        (suites.map fun s => Utf8.encode s.name).Pairwise (· < ·)) ∧
      ((∀ p ∈ places, ∃ t, Path.ofFields (root.namesBelow p) = Path.ofText t) →
        tree.ToldApart root) ∧
      ∀ w' place' tree', target w' root = .ok (place', tree') → tree'.Plain →
        (∀ p, tree'.HoldsFixture root p ↔ tree.HoldsFixture root p) →
        ∃ suites', discover w' root = .ok suites' ∧ suites'.Perm suites ∧
          suites'.map Suite.name = suites.map Suite.name ∧
          (tree.ToldApart root → suites' = suites) := by
  have hroot := ne_nil_of_target htarget
  have hfinds := finds_fixturePlaces hroot hplain
  refine ⟨_, _, discover_eq htarget hplain, hfinds, ?_, ?_, ?_⟩
  · exact fun hapart => ⟨hfinds.names_nodup hapart, hfinds.increasing hapart⟩
  · exact fun htext => hplain.toldApart_of_text fun p hp => htext p ((hfinds.mem_iff p).2 hp)
  · intro w' place' tree' htarget' hplain' hsame
    have hfinds' := finds_fixturePlaces hroot hplain'
    have hperm := hfinds.perm hfinds' hsame
    exact ⟨_, discover_eq htarget' hplain', hperm, hfinds.names_eq hfinds' hperm,
      hfinds.unique hfinds' hperm⟩

/-- A folder is called like a fixture, names have several dots, and files in different
folders have one name.  The same files are found when they are listed the other way
round. -/
theorem discover_in_order_nested :
    let named (t : String) (node : Node) : FileName × Node := (Path.ofText t.toList, node)
    let suite (path name : String) : Suite := ⟨Path.ofText path.toList, name.toList⟩
    let inner := [named "b" (.file []), named "x.y.json" (.file [])]
    let entries := [named "_c.json" (.file []), named "a.json" (.folder inner),
      named "a" (.folder inner), named ".d.json" (.file []), named "x.y.json" (.file [])]
    let entries' := [named "x.y.json" (.file []), named ".d.json" (.file []),
      named "a" (.folder inner.reverse), named "a.json" (.folder inner.reverse),
      named "_c.json" (.file [])]
    let w : World := ⟨.folder [named "t" (.folder entries)], []⟩
    let w' : World := ⟨.folder [named "t" (.folder entries')], []⟩
    let root := Path.ofText "/t/".toList
    let suites := [suite "/t/a.json/x.y.json" "a.json/x.y", suite "/t/a/x.y.json" "a/x.y",
      suite "/t/x.y.json" "x.y"]
    ∃ places, discover w root = .ok suites ∧ Finds root (.folder entries) places suites ∧
      (suites.map fun s => Utf8.encode s.name).Pairwise (· < ·) ∧
      discover w' root = .ok suites := by
  intro named suite inner entries entries' w w' root suites
  have hfile : (Node.file []).Plain := .file []
  have hinner : (Node.folder inner).Plain :=
    .folder (by decide) (by decide) (by simp [inner, named, hfile])
  have hinner' : (Node.folder inner.reverse).Plain :=
    .folder (by decide) (by decide) (by simp [inner, named, hfile])
  have hplain : (Node.folder entries).Plain :=
    .folder (by decide) (by decide) (by simp [entries, named, hfile, hinner])
  have hplain' : (Node.folder entries').Plain :=
    .folder (by decide) (by decide) (by simp [entries', named, hfile, hinner'])
  have htarget (es : List (FileName × Node)) :
      target ⟨.folder [named "t" (.folder es)], []⟩ root =
        .ok ([Path.ofText ['t']], .folder es) := by
    have hfields : root.fields = [[], Path.ofText ['t'], []] := by decide
    have hresolve : World.resolve ⟨.folder [named "t" (.folder es)], []⟩ root =
        .ok [Path.ofText ['t']] := by
      have hname : IsEntryName (Path.ofText ['t']) := by decide
      have hroot : root.isEmpty = false := by decide
      rw [World.resolve, hroot, hfields]
      simp [follow, named, Path.isIdle, hname.ne_nil, hname.ne_here, hname.ne_up, Node.at?,
        Node.child?]
    rw [target, hresolve]
    rfl
  have hperm : (Node.folder entries').files.Perm (Node.folder entries).files := by decide
  have hsame (p : Place) :
      (Node.folder entries').HoldsFixture root p ↔ (Node.folder entries).HoldsFixture root p := by
    rw [hplain.holdsFixture_iff, hplain'.holdsFixture_iff, hperm.mem_iff]
  have hsuites : discover w root = .ok suites :=
    discover_eq_of_pairwise (htarget entries) hplain (by decide +kernel) (by decide)
  obtain ⟨places, found, hdiscover, hfinds, hapart, htext, hother⟩ :=
    discover_in_order (htarget entries) hplain
  obtain rfl : found = suites := Except.ok.inj (hdiscover.symm.trans hsuites)
  have hshown : ∀ p ∈ (Node.folder entries).files,
      Path.ofFields (root.namesBelow p) = Path.ofText (root.readingBelow p) := by decide +kernel
  have hdiffer : (Node.folder entries).ToldApart root :=
    htext fun p hp => ⟨_, hshown p (hplain.mem_files.2 ((hfinds.mem_iff p).1 hp).file)⟩
  obtain ⟨suites', hdiscover', -, -, heq⟩ := hother w' _ _ (htarget entries') hplain' hsame
  rw [heq hdiffer] at hdiscover'
  exact ⟨places, hdiscover, hfinds, (hapart hdiffer).2, hdiscover'⟩

/-- Two names that are no texts are read alike.  Their suites have one name, which is the one
of no file, and come in the order in which the folder lists them.  A file that is the path
itself is called by its own name, though nothing is left of the path below it. -/
theorem discover_names_replaced :
    let first : FileName := 0xFF :: Path.ofText ".json".toList
    let second : FileName := 0xFE :: Path.ofText ".json".toList
    let entries : List (FileName × Node) := [(first, .file []), (second, .file [])]
    let s : Suite := ⟨Path.slash :: first, [Utf8.replacement]⟩
    let t : Suite := ⟨Path.slash :: second, [Utf8.replacement]⟩
    let one := Path.ofText "one.json".toList
    (Node.folder entries).Plain ∧
      discover ⟨.folder entries, []⟩ [Path.slash] = .ok [s, t] ∧
      discover ⟨.folder entries.reverse, []⟩ [Path.slash] = .ok [t, s] ∧
      ¬([s, t].map Suite.name).Nodup ∧
      ¬([s, t].map fun u => Utf8.encode u.name).Pairwise (· < ·) ∧
      (∀ u ∈ [s, t], Path.ofText (u.name ++ ".json".toList) ∉ entries.map Prod.fst) ∧
      discover ⟨.folder [(one, .file [])], []⟩ (Path.slash :: one) =
        .ok [⟨Path.slash :: one, "one".toList⟩] ∧
      Path.below? (Path.slash :: one) (Path.slash :: one) = some [] := by
  intro first second entries s t one
  have hfile : (Node.file []).Plain := .file []
  have hplain : (Node.folder entries).Plain :=
    .folder (by decide) (by decide) (by simp [entries, hfile])
  have hplain' : (Node.folder entries.reverse).Plain :=
    .folder (by decide) (by decide) (by simp [entries, hfile])
  have htarget : target ⟨.folder [(one, .file [])], []⟩ (Path.slash :: one) =
      .ok ([one], .file []) := by
    have hlookup : [(one, Node.file [])].lookup one = some (.file []) := by simp
    rw [target, resolve_file [] (by decide) hlookup]
    rfl
  refine ⟨hplain, ?_, ?_, by decide, by decide, by decide, ?_, by decide⟩
  · exact discover_eq_of_pairwise (target_root _ _) hplain (by decide +kernel) (by decide)
  · exact discover_eq_of_pairwise (target_root _ _) hplain' (by decide +kernel) (by decide)
  · exact discover_eq_of_pairwise htarget hfile (by decide +kernel) (by decide)

end UriTemplate
