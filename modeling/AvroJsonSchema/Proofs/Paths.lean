import AvroJsonSchema.Files.System
import AvroJsonSchema.Proofs.Octets
import AvroJsonSchema.Proofs.Texts

/-!
# Paths and their components

Whatever is done to a path shows in its components: a path within another one has the components of
both, and the directory of a path has all components but the last one.  Where a path leads depends on
its components alone.

* **`Path.components_join`**, **`Path.components_below`**: the components of a path within another.
* **`Path.parts_above`**, **`Path.parts_split`**: the two ways to find the directory of a path.
* **`Path.IsNameable`**: a path that is short enough, with code points that the system takes.
* **`Path.places_concat`**: where a path with one more component passes through.
-/

namespace AvroJsonSchema

namespace Path

/-! ### Components -/

theorem components_append (s t : Text) :
    components (s ++ slash :: t) = components s ++ components t := by
  rw [components, Text.splitAt_append, List.filter_append]
  rfl

theorem components_nil : components [] = [] :=
  rfl

theorem components_of_no_slash {t : Text} (hne : t ≠ []) (h : slash ∉ t) : components t = [t] := by
  rw [components, Text.splitAt_of_not_mem h]
  cases t with
  | nil => exact absurd rfl hne
  | cons c t => rfl

theorem mem_components {path component : Text} (h : component ∈ components path) :
    component ≠ [] ∧ slash ∉ component := by
  obtain ⟨hmem, hne⟩ := List.mem_filter.1 h
  refine ⟨fun h => ?_, Text.not_mem_of_mem_splitAt hmem⟩
  rw [h] at hne
  cases hne

theorem components_append_slash (s : Text) : components (s ++ [slash]) = components s := by
  rw [components_append, components_nil, List.append_nil]

theorem eq_append_slash {path : Text} (h : endsWithSlash path) : ∃ s, path = s ++ [slash] := by
  rw [endsWithSlash, decide_eq_true_eq] at h
  exact List.getLast?_eq_some_iff.1 h

/-- What stands behind a slash has its own components. -/
theorem components_append_of_ends {s : Text} (h : s = [] ∨ endsWithSlash s) (t : Text) :
    components (s ++ t) = components s ++ components t := by
  rcases h with rfl | h
  · rfl
  · obtain ⟨s, rfl⟩ := eq_append_slash h
    rw [List.append_assoc, List.singleton_append, components_append, components_append_slash]

theorem components_of_slashes {t : Text} (h : ∀ c ∈ t, c = slash) : components t = [] := by
  induction t with
  | nil => rfl
  | cons c t ih =>
    rw [h c List.mem_cons_self, ← List.nil_append (slash :: t), components_append, components_nil,
      ih fun c' hc' => h c' (List.mem_cons_of_mem _ hc'), List.nil_append]

theorem components_append_slashes (s : Text) {t : Text} (h : ∀ c ∈ t, c = slash) :
    components (s ++ t) = components s := by
  cases t with
  | nil => rw [List.append_nil]
  | cons c t =>
    rw [h c List.mem_cons_self, components_append,
      components_of_slashes fun c' hc' => h c' (List.mem_cons_of_mem _ hc'), List.append_nil]

/-- The last component has the end of the path, as far as this goes. -/
theorem components_append_of_no_slash (s : Text) {t : Text} (hne : t ≠ []) (h : slash ∉ t) :
    ∃ front last, components (s ++ t) = front ++ [last ++ t] := by
  obtain ⟨parts, part, heq⟩ := Text.splitAt_append_of_not_mem s h
  have hlast : (part ++ t).isEmpty = false := by
    rw [List.isEmpty_eq_false_iff]
    exact List.append_ne_nil_of_right_ne_nil part hne
  refine ⟨parts.filter (!·.isEmpty), part, ?_⟩
  rw [components, heq, List.filter_append, List.filter_cons, hlast]
  rfl

/-! ### A path within a directory -/

theorem components_join {path : Text} (h : isAbsolute path = false) (directory : Text) :
    components (join directory path) = components directory ++ components path := by
  rw [join, h]
  simp only [Bool.false_eq_true, if_false]
  split
  · rename_i hends
    rw [Bool.or_eq_true, List.isEmpty_iff] at hends
    exact components_append_of_ends hends path
  · exact components_append directory path

theorem isAbsolute_join {directory path : Text} (hd : directory ≠ [])
    (h : isAbsolute path = false) : isAbsolute (join directory path) = isAbsolute directory := by
  obtain ⟨c, directory, rfl⟩ := List.exists_cons_of_ne_nil hd
  rw [join, h]
  simp only [Bool.false_eq_true, if_false]
  split <;> rfl

theorem prefix_join {path : Text} (h : isAbsolute path = false) (directory : Text) :
    directory <+: join directory path := by
  rw [join, h]
  simp only [Bool.false_eq_true, if_false]
  split <;> exact List.prefix_append _ _

theorem endsWithSlash_append (s : Text) {t : Text} (h : t ≠ []) :
    endsWithSlash (s ++ t) = endsWithSlash t := by
  rw [endsWithSlash, endsWithSlash, List.getLast?_append, List.getLast?_eq_some_getLast h,
    Option.some_or]

theorem endsWithSlash_of_suffix {last path : Text} (h : last <:+ path) (hne : last ≠ []) :
    endsWithSlash path = endsWithSlash last := by
  obtain ⟨front, rfl⟩ := h
  exact endsWithSlash_append front hne

theorem endsWithSlash_of_no_slash {path : Text} (h : slash ∉ path) : endsWithSlash path = false := by
  rw [endsWithSlash, decide_eq_false_iff_not]
  exact fun hlast => h (List.mem_of_getLast? hlast)

theorem suffix_join {path : Text} (directory : Text) : path <:+ join directory path := by
  unfold join
  split
  · exact List.suffix_refl _
  · split
    · exact List.suffix_append _ _
    · exact List.suffix_append_of_suffix (List.suffix_cons _ _)

/-- There is a slash between a directory and what is within it. -/
theorem slash_mem_join {directory path : Text} (hne : directory ≠ []) (h : isAbsolute path = false) :
    slash ∈ join directory path := by
  rw [join, h]
  simp only [Bool.false_eq_true, if_false]
  split
  · rename_i hends
    rw [Bool.or_eq_true, List.isEmpty_iff] at hends
    obtain ⟨s, rfl⟩ := eq_append_slash (hends.resolve_left hne)
    exact List.mem_append_left _ (List.mem_append_right _ List.mem_cons_self)
  · exact List.mem_append_right _ List.mem_cons_self

theorem IsName.isAbsolute {name : Text} (h : IsName name) : isAbsolute name = false := by
  obtain ⟨c, name, rfl⟩ := List.exists_cons_of_ne_nil h.ne_nil
  rw [Path.isAbsolute, List.head?_cons, decide_eq_false_iff_not]
  exact fun hc => h.no_slash (Option.some.inj hc ▸ List.mem_cons_self)

theorem IsName.components {name : Text} (h : IsName name) : components name = [name] :=
  components_of_no_slash h.ne_nil h.no_slash

theorem components_below {names : List Text} (h : ∀ name ∈ names, IsName name) (path : Text) :
    components (below path names) = components path ++ names := by
  induction names generalizing path with
  | nil => exact (List.append_nil _).symm
  | cons name names ih =>
    have hname := h name List.mem_cons_self
    show components (below (join path name) names) = _
    rw [ih fun n hn => h n (List.mem_cons_of_mem _ hn), components_join hname.isAbsolute,
      hname.components, List.append_assoc, List.singleton_append]

theorem prefix_below {names : List Text} (h : ∀ name ∈ names, IsName name) (path : Text) :
    path <+: below path names := by
  induction names generalizing path with
  | nil => exact List.prefix_refl _
  | cons name names ih =>
    exact (prefix_join (h name List.mem_cons_self).isAbsolute path).trans
      (ih (fun n hn => h n (List.mem_cons_of_mem _ hn)) _)

theorem below_append (path : Text) (names more : List Text) :
    below path (names ++ more) = below (below path names) more :=
  List.foldl_append

theorem below_ne_nil {names : List Text} (h : ∀ name ∈ names, IsName name) {path : Text}
    (hne : path ≠ []) : below path names ≠ [] := fun heq =>
  hne (List.prefix_nil.1 (heq ▸ prefix_below h path))

theorem endsWithSlash_below {names : List Text} (h : ∀ name ∈ names, IsName name) (hne : names ≠ [])
    {path : Text} : endsWithSlash (below path names) = false := by
  have hlast := h _ (List.getLast_mem hne)
  rw [← List.dropLast_concat_getLast hne, below_append]
  exact (endsWithSlash_of_suffix (suffix_join _) hlast.ne_nil).trans
    (endsWithSlash_of_no_slash hlast.no_slash)

/-- The path of some names has these as its components. -/
theorem components_pathText {names : List Text} (h : ∀ name ∈ names, IsName name) :
    components (FileTree.pathText names) = names := by
  induction names with
  | nil => rfl
  | cons name names ih =>
    have hname := h name List.mem_cons_self
    have hnames : ∀ n ∈ names, IsName n := fun n hn => h n (List.mem_cons_of_mem _ hn)
    cases names with
    | nil => exact hname.components
    | cons other names =>
      show components (name ++ [slash] ++ FileTree.pathText (other :: names)) = _
      rw [List.append_assoc, List.singleton_append, components_append, hname.components, ih hnames,
        List.singleton_append]

theorem isAbsolute_pathText {names : List Text} (h : ∀ name ∈ names, IsName name) :
    isAbsolute (FileTree.pathText names) = false := by
  cases names with
  | nil => rfl
  | cons name names =>
    have hname := h name List.mem_cons_self
    obtain ⟨c, name, rfl⟩ := List.exists_cons_of_ne_nil hname.ne_nil
    cases names <;> exact hname.isAbsolute

/-! ### The directory of a path -/

/-- A path is a directory and a last component, which is empty if the path ends with a slash. -/
structure Parts (path directory last : Text) : Prop where
  components : components path = components directory ++ if last = [] then [] else [last]
  no_slash : slash ∉ last
  is_beginning : directory <+: path
  absolute : directory = [] → isAbsolute path = false

/-- Of a path only slashes are taken away, and unless there is nothing else all of its end. -/
theorem trimSlashes_spec (path : Text) : ∃ slashes, (∀ c ∈ slashes, c = slash) ∧
    path = trimSlashes path ++ slashes ∧
    (endsWithSlash (trimSlashes path) → ∀ c ∈ path, c = slash) := by
  obtain ⟨hpath, hback, hfront⟩ := Text.end_spec (fun c => decide (c = slash)) path
  generalize (path.reverse.takeWhile (fun c => decide (c = slash))).reverse = slashes at hpath hback
  have hslashes : ∀ c ∈ slashes, c = slash := fun c hc => of_decide_eq_true (hback c hc)
  unfold trimSlashes
  generalize (path.reverse.dropWhile (fun c => decide (c = slash))).reverse = front at hpath hfront
  simp only
  split
  · rename_i hempty
    refine ⟨[], by simp, (List.append_nil _).symm, fun _ => ?_⟩
    rw [List.isEmpty_iff.1 hempty, List.nil_append] at hpath
    exact hpath ▸ hslashes
  · refine ⟨slashes, hslashes, hpath, fun hends => ?_⟩
    rw [endsWithSlash, decide_eq_true_eq] at hends
    exact absurd rfl (of_decide_eq_false (hfront slash hends))

theorem components_trimSlashes (path : Text) : components (trimSlashes path) = components path := by
  obtain ⟨slashes, hslashes, hpath, -⟩ := trimSlashes_spec path
  conv => rhs; rw [hpath]
  exact (components_append_slashes _ hslashes).symm

theorem eq_nil_of_trimSlashes {path : Text} (h : trimSlashes path = []) : path = [] := by
  unfold trimSlashes at h
  simp only at h
  split at h
  · exact h
  · rename_i hne
    exact absurd (List.isEmpty_iff.2 h) hne

theorem split_spec (path : Text) : ∃ directory, path = directory ++ (split path).2 ∧
    (split path).1 = trimSlashes directory ∧ (directory = [] ∨ endsWithSlash directory) ∧
    slash ∉ (split path).2 := by
  obtain ⟨hpath, hback, hfront⟩ := Text.end_spec (fun c => decide (c ≠ slash)) path
  have hlast : (split path).2 = (path.reverse.takeWhile (fun c => decide (c ≠ slash))).reverse := rfl
  have hdirectory : (split path).1 = trimSlashes (path.take (path.length - (split path).2.length)) :=
    rfl
  rw [← hlast] at hpath hback
  generalize (path.reverse.dropWhile (fun c => decide (c ≠ slash))).reverse = directory
    at hpath hfront
  refine ⟨directory, hpath, ?_, ?_, fun hmem => of_decide_eq_true (hback _ hmem) rfl⟩
  · have hlength := congrArg List.length hpath
    rw [List.length_append] at hlength
    rw [hdirectory, hlength, Nat.add_sub_cancel]
    conv => lhs; rw [hpath]
    rw [List.take_left]
  · cases hends : directory.getLast? with
    | none => exact .inl (List.getLast?_eq_none_iff.1 hends)
    | some c =>
      have hc := of_decide_eq_false (hfront c hends)
      refine .inr ?_
      rw [endsWithSlash, hends, decide_eq_true_eq]
      exact congrArg some (Decidable.not_not.1 hc)

theorem isAbsolute_of_prefix {directory path : Text} (h : directory <+: path)
    (hne : directory ≠ []) : isAbsolute directory = isAbsolute path := by
  obtain ⟨rest, rfl⟩ := h
  obtain ⟨c, directory, rfl⟩ := List.exists_cons_of_ne_nil hne
  rfl

theorem isAbsolute_of_no_slash {path : Text} (h : slash ∉ path) : isAbsolute path = false := by
  rw [isAbsolute, decide_eq_false_iff_not]
  exact fun hhead => h (List.mem_of_head? hhead)

theorem parts_split (path : Text) : Parts path (split path).1 (split path).2 := by
  obtain ⟨directory, hpath, htrim, hends, hlast⟩ := split_spec path
  obtain ⟨slashes, -, hslashes, -⟩ := trimSlashes_spec directory
  have hbeginning : (split path).1 <+: path := by
    rw [htrim]
    conv => rhs; rw [hpath, hslashes]
    rw [List.append_assoc]
    exact List.prefix_append _ _
  refine ⟨?_, hlast, hbeginning, fun hnil => ?_⟩
  · conv => lhs; rw [hpath]
    rw [components_append_of_ends hends, htrim, components_trimSlashes]
    split
    · rename_i h
      rw [h]
      rfl
    · rename_i h
      rw [components_of_no_slash h hlast]
  · rw [htrim] at hnil
    rw [hpath, eq_nil_of_trimSlashes hnil]
    exact isAbsolute_of_no_slash hlast

theorem last_ne_nil {path : Text} (hne : path ≠ []) (hends : endsWithSlash path = false) :
    (split path).2 ≠ [] := by
  intro hnil
  obtain ⟨directory, hpath, -, hdirectory, -⟩ := split_spec path
  rw [hnil, List.append_nil] at hpath
  rw [← hpath, hends] at hdirectory
  exact hdirectory.elim hne Bool.noConfusion

theorem Parts.components_of_ne {path directory last : Text} (h : Parts path directory last)
    (hne : last ≠ []) : Path.components path = Path.components directory ++ [last] := by
  rw [h.components, if_neg hne]

theorem no_slash_of_dirname {path : Text} (h : dirname path = []) : slash ∉ path := by
  obtain ⟨directory, hpath, htrim, -, hlast⟩ := split_spec path
  rw [dirname, htrim] at h
  rw [hpath, eq_nil_of_trimSlashes h]
  exact hlast

/-- The directory above a path, also where the path ends with slashes. -/
theorem parts_above (path : Text) :
    Parts path (FileSystem.above path).1 (FileSystem.above path).2 := by
  have h := parts_split path
  unfold FileSystem.above
  simp only
  split
  · rename_i hempty
    rw [List.isEmpty_iff] at hempty
    have h' := parts_split (split path).1
    rw [hempty] at h
    refine ⟨?_, h'.no_slash, h'.is_beginning.trans h.is_beginning, fun hnil => ?_⟩
    · rw [h.components, if_pos rfl, List.append_nil, h'.components]
    · by_cases hdirectory : (split path).1 = []
      · exact h.absolute hdirectory
      · rw [← isAbsolute_of_prefix h.is_beginning hdirectory]
        exact h'.absolute hnil
  · exact h

/-- A path with a directory above it but no last component has no components at all. -/
theorem components_of_above_eq_nil {path : Text} (h : (FileSystem.above path).2 = []) :
    components path = [] := by
  have hsplit : (split path).2 = [] := by
    unfold FileSystem.above at h
    simp only at h
    split at h
    · rename_i hempty
      exact List.isEmpty_iff.1 hempty
    · exact h
  have hagain : (split (split path).1).2 = [] := by
    unfold FileSystem.above at h
    simpa only [hsplit, List.isEmpty_nil, if_true] using h
  have hcomponents := (parts_split path).components
  rw [if_pos hsplit, List.append_nil] at hcomponents
  rw [hcomponents]
  -- without a last component the directory is empty, or a slash was left because there is nothing else
  obtain ⟨directory, -, htrim, -, -⟩ := split_spec path
  obtain ⟨directory', heq, -, hends, -⟩ := split_spec (split path).1
  rw [hagain, List.append_nil] at heq
  rw [← heq] at hends
  rcases hends with hnil | hends
  · rw [hnil]
    rfl
  · obtain ⟨-, -, -, hslashes⟩ := trimSlashes_spec directory
    rw [htrim] at hends ⊢
    rw [components_trimSlashes]
    exact components_of_slashes (hslashes hends)

/-! ### Paths that the system takes -/

theorem encodeFault?_eq_none_iff {path : Text} :
    encodeFault? path = none ↔ ∀ c ∈ path, isUnencodable c = false := by
  have hsplit := List.takeWhile_append_dropWhile (p := fun c => !isUnencodable c) (l := path)
  have hfirst := List.head?_dropWhile_not (fun c => !isUnencodable c) path
  unfold encodeFault?
  cases hrest : path.dropWhile (fun c => !isUnencodable c) with
  | nil =>
    refine ⟨fun _ c hc => ?_, fun _ => rfl⟩
    rw [hrest, List.append_nil] at hsplit
    rw [← hsplit] at hc
    have hall := List.all_eq_true.1 List.all_takeWhile c hc
    rwa [Bool.not_eq_true'] at hall
  | cons c rest =>
    refine ⟨fun h => absurd h (Option.some_ne_none _), fun h => ?_⟩
    rw [hrest] at hsplit hfirst
    have hc := h c (hsplit ▸ List.mem_append_right _ List.mem_cons_self)
    rw [List.head?_cons] at hfirst
    simp only [hc] at hfirst
    cases hfirst

theorem check_eq_ok_iff {path : Text} :
    check path = .ok () ↔ ∀ c ∈ path, isUnencodable c = false ∧ c.val ≠ 0 := by
  unfold check
  constructor
  · intro h
    split at h
    · cases h
    · rename_i hfault
      split at h
      · cases h
      · rename_i hzero
        rw [Bool.not_eq_true, List.any_eq_false] at hzero
        exact fun c hc => ⟨encodeFault?_eq_none_iff.1 hfault c hc, by simpa using hzero c hc⟩
  · intro h
    rw [encodeFault?_eq_none_iff.2 fun c hc => (h c hc).1]
    have hzero : path.any (·.val = 0) = false := by
      rw [List.any_eq_false]
      exact fun c hc => by simpa using (h c hc).2
    simp only [hzero, Bool.false_eq_true, if_false]

/-- A path that can name a file: its code points have octets and none of these is zero, and neither
the path nor a component is too long. -/
structure IsNameable (path : Text) : Prop where
  encodable : ∀ c ∈ path, isUnencodable c = false ∧ c.val ≠ 0
  path_le : octetCount path ≤ pathLimit
  component_le : ∀ component ∈ components path, octetCount component ≤ componentLimit

instance (path : Text) : Decidable (IsNameable path) :=
  decidable_of_iff ((∀ c ∈ path, isUnencodable c = false ∧ c.val ≠ 0) ∧
      octetCount path ≤ pathLimit ∧
      ∀ component ∈ components path, octetCount component ≤ componentLimit)
    ⟨fun ⟨a, b, c⟩ => ⟨a, b, c⟩, fun ⟨a, b, c⟩ => ⟨a, b, c⟩⟩

theorem IsNameable.check {path : Text} (h : IsNameable path) : check path = .ok () :=
  check_eq_ok_iff.2 h.encodable

theorem octetCount_append (s t : Text) : octetCount (s ++ t) = octetCount s + octetCount t := by
  rw [octetCount, Utf8.encodeKeeping_append, List.length_append]
  rfl

/-- The beginning of a path can name a file if the path can. -/
theorem IsNameable.of_prefix {directory path : Text} (h : IsNameable path)
    (hbegin : directory <+: path) (hcomponents : components directory <+: components path) :
    IsNameable directory := by
  refine ⟨fun c hc => h.encodable c (hbegin.mem hc), ?_,
    fun c hc => h.component_le c (hcomponents.mem hc)⟩
  obtain ⟨rest, rfl⟩ := hbegin
  have := h.path_le
  rw [octetCount_append] at this
  omega

/-- The directory of a path that can name a file can name one. -/
theorem Parts.isNameable {path directory last : Text} (h : Parts path directory last)
    (hpath : IsNameable path) : IsNameable directory :=
  hpath.of_prefix h.is_beginning (h.components ▸ List.prefix_append _ _)

theorem IsNameable.of_below {path : Text} {names more : List Text} (hmore : ∀ name ∈ more, IsName name)
    (h : IsNameable (below path (names ++ more))) : IsNameable (below path names) := by
  rw [below_append] at h
  refine h.of_prefix (prefix_below hmore _) ?_
  rw [components_below hmore]
  exact List.prefix_append _ _

theorem length_join {path : Text} (h : isAbsolute path = false) (directory : Text) :
    directory.length + path.length ≤ (join directory path).length := by
  rw [join, h]
  simp only [Bool.false_eq_true, if_false]
  split
  · exact Nat.le_of_eq List.length_append.symm
  · rw [List.length_append, List.length_cons]
    omega

/-- No path has more names than octets. -/
theorem length_le_octetCount_below {names : List Text} (h : ∀ name ∈ names, IsName name)
    (path : Text) : names.length ≤ octetCount (below path names) := by
  have hlength : path.length + names.length ≤ (below path names).length := by
    induction names generalizing path with
    | nil => exact Nat.le_refl _
    | cons name names ih =>
      have hname := h name List.mem_cons_self
      have hpositive := List.length_pos_iff.2 hname.ne_nil
      have hjoin := length_join hname.isAbsolute path
      have hrest := ih (fun n hn => h n (List.mem_cons_of_mem _ hn)) (join path name)
      show path.length + (names.length + 1) ≤ (below (join path name) names).length
      omega
  have := Utf8.length_le_encodeKeeping (below path names)
  exact Nat.le_trans (Nat.le_trans (Nat.le_add_left _ _) hlength) this

/-! ### Where a path leads -/

/-- Where some components lead from a place. -/
def lead (names : List Text) (components : List Text) : List Text :=
  components.foldl follow names

theorem places_ne_nil (names components : List Text) : places names components ≠ [] := by
  cases components <;> exact List.cons_ne_nil _ _

theorem places_append (names first more : List Text) :
    places names (first ++ more) =
      places names first ++ (places (lead names first) more).tail := by
  induction first generalizing names with
  | nil => cases more <;> rfl
  | cons c first ih => exact congrArg (names :: ·) (ih _)

/-- One more component leads to one more place. -/
theorem places_concat (names components : List Text) (component : Text) :
    places names (components ++ [component]) =
      places names components ++ [lead names (components ++ [component])] := by
  rw [places_append, lead, lead, List.foldl_append]
  rfl

/-- The last place is where the components lead. -/
theorem places_eq_concat (names components : List Text) :
    places names components = (places names components).dropLast ++ [lead names components] := by
  by_cases hnil : components = []
  · rw [hnil]
    rfl
  · rw [← List.dropLast_concat_getLast hnil, places_concat, List.dropLast_concat]

theorem lead_mem_places (names components : List Text) :
    lead names components ∈ places names components := by
  induction components generalizing names with
  | nil => exact List.mem_cons_self
  | cons c components ih => exact List.mem_cons_of_mem _ (ih _)

theorem lead_append (names first more : List Text) :
    lead names (first ++ more) = lead (lead names first) more :=
  List.foldl_append

/-- Names lead down one directory after the other. -/
theorem lead_of_isName {more : List Text} (h : ∀ name ∈ more, IsName name) (names : List Text) :
    lead names more = names ++ more := by
  induction more generalizing names with
  | nil => exact (List.append_nil _).symm
  | cons name more ih =>
    show lead (follow names name) more = _
    rw [follow_of_isName (h name List.mem_cons_self), ih fun n hn => h n (List.mem_cons_of_mem _ hn),
      List.append_assoc, List.singleton_append]

/-- What some components pass through, their first part passes through or the rest of them. -/
theorem mem_dropLast_places_append {names first more passed : List Text}
    (h : passed ∈ (places names (first ++ more)).dropLast) :
    passed ∈ (places names first).dropLast ∨ passed ∈ (places (lead names first) more).dropLast := by
  induction first generalizing names with
  | nil => exact .inr h
  | cons c first ih =>
    rw [List.cons_append, places, List.dropLast_cons_of_ne_nil (places_ne_nil _ _),
      List.mem_cons] at h
    rw [places, List.dropLast_cons_of_ne_nil (places_ne_nil _ _), List.mem_cons]
    rcases h with rfl | h
    · exact .inl (.inl rfl)
    · exact (ih h).imp_left .inr

/-- Names pass through the directories below a place. -/
theorem exists_of_mem_places {names more passed : List Text} (h : ∀ name ∈ more, IsName name)
    (hmem : passed ∈ places names more) : ∃ front, front <+: more ∧ passed = names ++ front := by
  induction more generalizing names with
  | nil => exact ⟨[], List.prefix_refl _, by rw [List.append_nil]; exact List.mem_singleton.1 hmem⟩
  | cons name more ih =>
    rcases List.mem_cons.1 hmem with rfl | hmem
    · exact ⟨[], List.nil_prefix, (List.append_nil _).symm⟩
    · rw [follow_of_isName (h name List.mem_cons_self)] at hmem
      obtain ⟨front, hfront, rfl⟩ := ih (fun n hn => h n (List.mem_cons_of_mem _ hn)) hmem
      exact ⟨name :: front, List.cons_prefix_cons.2 ⟨rfl, hfront⟩,
        by rw [List.append_assoc, List.singleton_append]⟩

theorem exists_of_mem_dropLast_places {names more passed : List Text}
    (h : ∀ name ∈ more, IsName name) (hmem : passed ∈ (places names more).dropLast) :
    ∃ front back, back ≠ [] ∧ more = front ++ back ∧ passed = names ++ front := by
  by_cases hnil : more = []
  · rw [hnil] at hmem
    exact absurd hmem List.not_mem_nil
  · have hmore := List.dropLast_concat_getLast hnil
    rw [← hmore, places_concat, List.dropLast_concat] at hmem
    have hnames : ∀ name ∈ more.dropLast, IsName name := fun n hn => h n (List.dropLast_subset _ hn)
    obtain ⟨front, ⟨rest, hrest⟩, hpassed⟩ := exists_of_mem_places hnames hmem
    refine ⟨front, rest ++ [more.getLast hnil], List.concat_ne_nil _ _, ?_, hpassed⟩
    rw [← List.append_assoc, hrest, hmore]

end Path

end AvroJsonSchema
