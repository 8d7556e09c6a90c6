import Mathlib.Data.List.Basic
import WorkflowCompiler.Reference.Basic

/-!
# Normal paths

Components are followed one after the other, and what is kept on the way is a run of pairs of
points with names after it (`FilePath.Normal.Leads`, `FilePath.Normal.Leads.push`), the run being
empty after the root. Written down and read again, a normal path has just these components
(`FilePath.components_text`), so its normal form is the path itself (`FilePath.normalize_text`). To
go on from a path is to follow further components (`FilePath.components_join`), which only depends
on the normal form; and a file name without `#` ends in a key where the first `#` stands.
-/

namespace WorkflowCompiler

/-! ## Parts of texts -/

namespace Text

theorem splitOn_eq (sep : Char) (cs : List Char) : splitOn sep cs = cs.splitOn sep := by
  have hjoin : ∀ parts, joinWith sep parts = List.intercalate [sep] parts := by
    intro parts
    induction parts using joinWith.induct with
    | case1 => rfl
    | case2 part => rw [joinWith, List.intercalate_singleton]
    | case3 part parts hne ih =>
      obtain ⟨next, rest, rfl⟩ := List.exists_cons_of_ne_nil hne
      rw [joinWith, ih, List.intercalate_cons_cons, List.append_assoc, List.singleton_append]
      exact hne
  rw [← List.splitOn_intercalate sep (fun _ => not_mem_of_mem_splitOn) (splitOn_ne_nil sep cs),
    ← hjoin, join_splitOn]

theorem splitOn_append (sep : Char) (before after : List Char) :
    splitOn sep (before ++ sep :: after) = splitOn sep before ++ splitOn sep after := by
  rw [splitOn_eq, splitOn_eq, splitOn_eq, List.splitOn_append_cons_self]

/-- Texts without the separator are the parts of the text that they are joined to. -/
theorem split_joined {sep : Char} {parts : List String} (hne : parts ≠ [])
    (hparts : ∀ part ∈ parts, sep ∉ part.toList) :
    splitOn sep (joined (String.ofList [sep]) parts).toList = parts.map String.toList := by
  have hlists : ∀ cs ∈ parts.map String.toList, sep ∉ cs := by
    intro cs hcs
    obtain ⟨part, hpart, rfl⟩ := List.mem_map.1 hcs
    exact hparts part hpart
  rw [joined, String.toList_intercalate, String.toList_ofList, splitOn_eq,
    List.splitOn_intercalate sep hlists (by simpa using hne)]

/-- A character of a text stands in one of its parts, or is the separator. -/
theorem mem_splitOn_iff {sep c : Char} {cs : List Char} (hne : c ≠ sep) :
    (∃ part ∈ splitOn sep cs, c ∈ part) ↔ c ∈ cs := by
  have hjoin := join_splitOn sep cs
  generalize splitOn sep cs = parts at hjoin
  subst hjoin
  induction parts using joinWith.induct with
  | case1 => simp [joinWith]
  | case2 part => simp [joinWith]
  | case3 part parts hparts ih =>
    rw [joinWith, List.mem_append, List.mem_cons, or_iff_right hne, List.exists_mem_cons_iff]
    · exact or_congr_right ih
    · exact hparts

end Text

namespace FilePath

variable {path directory s : String} {part : PathPart} {n : Normal} {ups : Nat}
  {names : List String}

/-! ## Components -/

theorem partOf_eq_name_iff {t : String} : partOf t = .name s ↔ t = s ∧ s ≠ "." ∧ s ≠ ".." := by
  rw [partOf]
  split
  · simp_all
  · split <;> aesop

theorem isAbsolute_eq_true_iff : isAbsolute path = true ↔ ∃ rest, path.toList = '/' :: rest := by
  rw [isAbsolute]
  split
  · simp_all
  · simp_all

/-- The components between the slashes of a text. -/
def between (cs : List Char) : List PathPart :=
  (((Text.splitOn '/' cs).map String.ofList).filter (· ≠ "")).map partOf

theorem components_eq (path : String) :
    components path = (if isAbsolute path then [.root] else []) ++ between path.toList :=
  rfl

theorem between_append (before after : List Char) :
    between (before ++ '/' :: after) = between before ++ between after := by
  rw [between, Text.splitOn_append, List.map_append, List.filter_append, List.map_append]
  rfl

theorem between_nil : between [] = [] := rfl

theorem between_slash (cs : List Char) : between ('/' :: cs) = between cs :=
  between_append [] cs

/-- A name that is a component of a path stands in it without slashes. -/
structure NameIn (s path : String) : Prop where
  ne_empty : s ≠ ""
  ne_here : s ≠ "."
  ne_up : s ≠ ".."
  no_slash : '/' ∉ s.toList
  chars : ∀ c ∈ s.toList, c ∈ path.toList

theorem nameIn_of_mem_components (h : .name s ∈ components path) : NameIn s path := by
  rw [components_eq, List.mem_append] at h
  rcases h with h | h
  · split at h <;> simp at h
  · obtain ⟨t, ht, hpart⟩ := List.mem_map.1 h
    obtain ⟨rfl, hhere, hup⟩ := partOf_eq_name_iff.1 hpart
    obtain ⟨hmem, hne⟩ := List.mem_filter.1 ht
    obtain ⟨cs, hcs, rfl⟩ := List.mem_map.1 hmem
    have hslash : '/' ∉ cs := Text.not_mem_of_mem_splitOn hcs
    refine ⟨of_decide_eq_true hne, hhere, hup, by rwa [String.toList_ofList], fun c hc => ?_⟩
    rw [String.toList_ofList] at hc
    exact (Text.mem_splitOn_iff (ne_of_mem_of_not_mem hc hslash)).1 ⟨cs, hcs, hc⟩

/-! ## Following components -/

/-- Pairs of points come before all names, and do not come after the root. -/
structure Normal.Leads (n : Normal) (ups : Nat) (names : List String) : Prop where
  /-- the last component comes first -/
  parts : n.parts = names ++ List.replicate ups ".."
  /-- no name is a pair of points -/
  not_up : ".." ∉ names
  /-- from the root no way leads up -/
  grounded : n.absolute = true → ups = 0

/-- Along every component the run of pairs of points stays at the start: a pair of points takes
away the last name, or makes the run longer where there is none. -/
theorem Normal.Leads.push (h : n.Leads ups names) (hpart : part ≠ .name "..") :
    ∃ ups names, (n.push part).Leads ups names := by
  obtain ⟨absolute, parts⟩ := n
  obtain ⟨hparts, hup, hground⟩ := h
  obtain rfl : parts = names ++ List.replicate ups ".." := hparts
  cases part with
  | root => exact ⟨0, [], rfl, List.not_mem_nil, fun _ => rfl⟩
  | here => exact ⟨ups, names, rfl, hup, hground⟩
  | name s =>
    have hs : ".." ≠ s := fun heq => hpart (heq ▸ rfl)
    exact ⟨ups, s :: names, rfl, List.not_mem_cons_of_ne_of_not_mem hs hup, hground⟩
  | up =>
    cases names with
    | cons s rest =>
      obtain ⟨hs, hrest⟩ := not_or.1 (mt List.mem_cons.2 hup)
      refine ⟨ups, rest, ?_, hrest, ?_⟩
      · simp [Normal.push, Ne.symm hs]
      · simpa [Normal.push, Ne.symm hs] using hground
    | nil =>
      cases ups with
      | zero =>
        cases absolute with
        | true => exact ⟨0, [], rfl, List.not_mem_nil, fun _ => rfl⟩
        | false => exact ⟨1, [], rfl, List.not_mem_nil, nofun⟩
      | succ ups =>
        have hrelative : absolute ≠ true := fun heq => nomatch hground heq
        exact ⟨ups + 2, [], rfl, List.not_mem_nil, fun heq => absurd heq hrelative⟩

theorem Normal.Leads.foldl {parts : List PathPart} (h : n.Leads ups names)
    (hparts : .name ".." ∉ parts) : ∃ ups names, (parts.foldl Normal.push n).Leads ups names := by
  induction parts generalizing n ups names with
  | nil => exact ⟨ups, names, h⟩
  | cons part parts ih =>
    obtain ⟨hpart, hparts⟩ := not_or.1 (mt List.mem_cons.2 hparts)
    obtain ⟨ups, names, h⟩ := h.push (Ne.symm hpart)
    exact ih h hparts

theorem leads_nil : ({} : Normal).Leads 0 [] := ⟨rfl, List.not_mem_nil, nofun⟩

theorem exists_leads_normalize (path : String) : ∃ ups names, (normalize path).Leads ups names :=
  leads_nil.foldl fun hmem => (nameIn_of_mem_components hmem).ne_up rfl

/-- What is kept was a component, or is a pair of points. -/
theorem mem_parts_push (h : s ∈ (n.push part).parts) :
    s ∈ n.parts ∨ s = ".." ∨ part = .name s := by
  cases part with
  | root => exact absurd h List.not_mem_nil
  | here => exact .inl h
  | name t =>
    rcases List.mem_cons.1 h with rfl | h
    · exact .inr (.inr rfl)
    · exact .inl h
  | up =>
    rw [Normal.push] at h
    split at h <;> split at h <;> simp_all

theorem mem_parts_foldl {parts : List PathPart} (h : s ∈ (parts.foldl Normal.push n).parts) :
    s ∈ n.parts ∨ s = ".." ∨ .name s ∈ parts := by
  induction parts generalizing n with
  | nil => exact .inl h
  | cons part parts ih =>
    rcases ih h with h | h | h
    · rcases mem_parts_push h with h | h | rfl
      · exact .inl h
      · exact .inr (.inl h)
      · exact .inr (.inr List.mem_cons_self)
    · exact .inr (.inl h)
    · exact .inr (.inr (List.mem_cons_of_mem _ h))

theorem mem_parts_normalize (h : s ∈ (normalize path).parts) : s = ".." ∨ NameIn s path := by
  rcases mem_parts_foldl (n := {}) h with h | h | h
  · exact absurd h List.not_mem_nil
  · exact .inl h
  · exact .inr (nameIn_of_mem_components h)

theorem whole_of_mem_parts : ∀ s ∈ (normalize path).parts, s ≠ "" ∧ '/' ∉ s.toList := by
  intro s hs
  rcases mem_parts_normalize hs with rfl | hs
  · decide +kernel
  · exact ⟨hs.ne_empty, hs.no_slash⟩

theorem absolute_foldl {parts : List PathPart} (h : .root ∉ parts) :
    (parts.foldl Normal.push n).absolute = n.absolute := by
  induction parts generalizing n with
  | nil => rfl
  | cons part parts ih =>
    obtain ⟨hpart, hparts⟩ := not_or.1 (mt List.mem_cons.2 h)
    rw [List.foldl_cons, ih hparts]
    cases part with
    | root => exact absurd rfl hpart
    | here => rfl
    | name s => rfl
    | up =>
      rw [Normal.push]
      split <;> split <;> rfl

theorem absolute_normalize (path : String) : (normalize path).absolute = isAbsolute path := by
  have hbetween : .root ∉ between path.toList := by
    rw [between, List.mem_map]
    rintro ⟨s, -, hs⟩
    rw [partOf] at hs
    split at hs
    · cases hs
    · split at hs <;> cases hs
  rw [normalize, ofComponents, components_eq, List.foldl_append, absolute_foldl hbetween]
  cases isAbsolute path <;> rfl

/-! ## Written down and read again -/

theorem between_joined {parts : List String}
    (hparts : ∀ s ∈ parts, s ≠ "" ∧ '/' ∉ s.toList) :
    between (Text.joined "/" parts).toList = parts.map partOf := by
  rcases eq_or_ne parts [] with rfl | hne
  · rfl
  · have hsplit := Text.split_joined hne fun s hs => (hparts s hs).2
    have hkept : parts.filter (· ≠ "") = parts := by
      rw [List.filter_eq_self]
      exact fun s hs => decide_eq_true (hparts s hs).1
    rw [between, show "/" = String.ofList ['/'] from rfl, hsplit, List.map_map]
    simp only [Function.comp_def, String.ofList_toList, List.map_id', hkept]

theorem isAbsolute_joined {parts : List String}
    (hparts : ∀ s ∈ parts, s ≠ "" ∧ '/' ∉ s.toList) :
    isAbsolute (Text.joined "/" parts) = false := by
  rw [← Bool.not_eq_true, isAbsolute_eq_true_iff]
  rintro ⟨rest, hrest⟩
  cases parts with
  | nil => cases hrest
  | cons s parts =>
    -- a slash at the start would leave nothing of the first part
    have hsplit := Text.split_joined (List.cons_ne_nil s parts) fun s hs => (hparts s hs).2
    rw [show String.ofList ['/'] = "/" from rfl, hrest, ← List.nil_append ('/' :: rest),
      Text.splitOn_append, Text.splitOn, List.map_cons, List.cons_append, List.cons.injEq] at hsplit
    exact (hparts s List.mem_cons_self).1 (String.toList_inj.1 hsplit.1.symm)

/-- The components of a normal path that is written down. -/
theorem components_text_eq (hparts : ∀ s ∈ n.parts, s ≠ "" ∧ '/' ∉ s.toList) :
    components n.text = (if n.absolute then [.root] else []) ++ n.parts.reverse.map partOf := by
  obtain ⟨absolute, parts⟩ := n
  have hreverse : ∀ s ∈ parts.reverse, s ≠ "" ∧ '/' ∉ s.toList :=
    fun s hs => hparts s (List.mem_reverse.1 hs)
  rw [components_eq, Normal.text]
  cases absolute with
  | true =>
    have htext : ("/" ++ Text.joined "/" parts.reverse).toList =
        '/' :: (Text.joined "/" parts.reverse).toList := String.toList_append
    simp only [if_true, isAbsolute_eq_true_iff.2 ⟨_, htext⟩, htext, between_slash,
      between_joined hreverse]
  | false =>
    simp only [Bool.false_eq_true, if_false, String.empty_append, isAbsolute_joined hreverse,
      between_joined hreverse]

theorem Normal.Leads.components_text (h : (normalize path).Leads ups names) :
    components (normalize path).text =
      (if isAbsolute path then [.root] else []) ++
        (List.replicate ups .up ++ names.reverse.map .name) := by
  have hnames : ∀ s ∈ names, NameIn s path := by
    intro s hs
    have hmem : s ∈ (normalize path).parts := h.parts ▸ List.mem_append_left _ hs
    exact (mem_parts_normalize hmem).resolve_left (ne_of_mem_of_not_mem hs h.not_up)
  have hnamed : names.reverse.map partOf = names.reverse.map .name := by
    refine List.map_congr_left fun s hs => partOf_eq_name_iff.2 ⟨rfl, ?_⟩
    have hs := hnames s (List.mem_reverse.1 hs)
    exact ⟨hs.ne_here, hs.ne_up⟩
  rw [components_text_eq whole_of_mem_parts, absolute_normalize, h.parts, List.reverse_append,
    List.reverse_replicate, List.map_append, List.map_replicate, hnamed]
  rfl

/-- Pairs of points make a run of them longer. -/
theorem foldl_push_up (k ups : Nat) :
    (List.replicate ups .up).foldl Normal.push { parts := List.replicate k ".." } =
      { parts := List.replicate (k + ups) ".." } := by
  induction ups generalizing k with
  | zero => rfl
  | succ ups ih =>
    have hpush : Normal.push { parts := List.replicate k ".." } .up =
        { parts := List.replicate (k + 1) ".." } := by
      cases k <;> rfl
    rw [List.replicate_succ, List.foldl_cons, hpush, ih, Nat.add_right_comm, Nat.add_assoc]

theorem foldl_push_name (names : List String) :
    (names.map .name).foldl Normal.push n = { n with parts := names.reverse ++ n.parts } := by
  induction names generalizing n with
  | nil => rfl
  | cons s names ih =>
    rw [List.map_cons, List.foldl_cons, ih, List.reverse_cons, List.append_assoc]
    rfl

theorem Normal.Leads.ofComponents_eq (h : n.Leads ups names) :
    ofComponents ((if n.absolute then [.root] else []) ++
      (List.replicate ups .up ++ names.reverse.map .name)) = n := by
  obtain ⟨absolute, parts⟩ := n
  obtain ⟨hparts, -, hground⟩ := h
  obtain rfl : parts = names ++ List.replicate ups ".." := hparts
  rw [ofComponents, List.foldl_append, List.foldl_append, foldl_push_name, List.reverse_reverse]
  cases absolute with
  | true =>
    obtain rfl : ups = 0 := hground rfl
    rfl
  | false =>
    have hups := foldl_push_up 0 ups
    rw [Nat.zero_add] at hups
    simp only [Bool.false_eq_true, if_false, List.foldl_nil]
    rw [show ({} : Normal) = { parts := List.replicate 0 ".." } from rfl, hups]

/-- A normal path is its own normal form. -/
theorem normalize_text (path : String) : normalize (normalize path).text = normalize path := by
  obtain ⟨ups, names, h⟩ := exists_leads_normalize path
  rw [normalize, h.components_text, ← absolute_normalize, h.ofComponents_eq]

theorem text_normalize_inj {path other : String} :
    (normalize path).text = (normalize other).text ↔ normalize path = normalize other := by
  refine ⟨fun h => ?_, congrArg _⟩
  rw [← normalize_text path, h, normalize_text]

/-! ## Going on from a path -/

theorem isAbsolute_append (h : directory ≠ "") (path : String) :
    isAbsolute (directory ++ path) = isAbsolute directory := by
  obtain ⟨c, cs, hdirectory⟩ := List.exists_cons_of_ne_nil (mt String.toList_eq_nil_iff.1 h)
  rw [Bool.eq_iff_iff, isAbsolute_eq_true_iff, isAbsolute_eq_true_iff, String.toList_append,
    hdirectory]
  simp only [List.cons_append, List.cons.injEq, exists_and_left, exists_eq']

/-- A relative path from a directory on has the components of both. -/
theorem components_join (h : isAbsolute path = false) :
    components (join directory path) = components directory ++ components path := by
  have hpath : components path = between path.toList := by
    rw [components_eq, h]
    rfl
  rcases eq_or_ne directory "" with rfl | hne
  · rw [join, h]
    rfl
  by_cases hslash : endsWithSlash directory = true
  · have hjoin : join directory path = directory ++ path := by simp [join, h, hslash]
    -- the slash at the end comes between the components of both
    obtain ⟨before, hbefore⟩ := List.getLast?_eq_some_iff.1 (of_decide_eq_true hslash)
    rw [hjoin, hpath, components_eq, isAbsolute_append hne, components_eq, String.toList_append,
      hbefore, List.append_assoc, List.append_assoc, List.singleton_append, between_append,
      between_append, between_nil, List.append_nil]
  · have hjoin : join directory path = directory ++ ("/" ++ path) := by
      simp [join, h, hslash, hne, String.append_assoc]
    have htext : ("/" ++ path).toList = '/' :: path.toList := String.toList_append
    rw [hjoin, hpath, components_eq, isAbsolute_append hne, components_eq, String.toList_append,
      htext, between_append, List.append_assoc]

/-- To go on along a relative path is to follow its components from the normal form on. -/
theorem normalize_join (h : isAbsolute path = false) :
    normalize (join directory path) = (components path).foldl Normal.push (normalize directory) := by
  rw [normalize, components_join h, ofComponents, List.foldl_append]
  rfl

end FilePath

/-! ## Keys -/

namespace Reference

open FilePath

variable {file workflow : String}

/-- A normal path is written with points, slashes and the characters of names. -/
theorem hash_not_mem_text (h : '#' ∉ file.toList) : '#' ∉ (normalize file).text.toList := by
  have hparts : ∀ s ∈ (normalize file).parts.reverse, '/' ∉ s.toList ∧ '#' ∉ s.toList := by
    intro s hs
    rw [List.mem_reverse] at hs
    refine ⟨(whole_of_mem_parts s hs).2, ?_⟩
    rcases mem_parts_normalize hs with rfl | hs
    · decide +kernel
    · exact fun hmem => h (hs.chars _ hmem)
  have hjoined : '#' ∉ (Text.joined "/" (normalize file).parts.reverse).toList := by
    generalize (normalize file).parts.reverse = parts at hparts
    rcases eq_or_ne parts [] with rfl | hne
    · exact List.not_mem_nil
    · have hslash : '#' ≠ '/' := by decide
      rw [← Text.mem_splitOn_iff hslash, show "/" = String.ofList ['/'] from rfl,
        Text.split_joined hne fun s hs => (hparts s hs).1]
      rintro ⟨cs, hcs, hmem⟩
      obtain ⟨s, hs, rfl⟩ := List.mem_map.1 hcs
      exact (hparts s hs).2 hmem
  rw [Normal.text, String.toList_append, List.mem_append, not_or]
  refine ⟨?_, hjoined⟩
  split <;> decide +kernel

/-- A key is cut at the end of the file, where the file has no `#`. -/
theorem cutAt?_key (h : '#' ∉ file.toList) :
    Text.cutAt? '#' (key file workflow) = some ((normalize file).text, workflow) := by
  refine Text.cutAt?_eq_some_iff.2 ⟨?_, hash_not_mem_text h⟩
  rw [key, String.toList_append, String.toList_append, List.append_assoc]
  rfl

theorem key_eq_iff {other otherWorkflow : String} (hfile : '#' ∉ file.toList)
    (hother : '#' ∉ other.toList) :
    key file workflow = key other otherWorkflow ↔
      normalize file = normalize other ∧ workflow = otherWorkflow := by
  constructor
  · intro h
    have hcut : some ((normalize file).text, workflow) =
        some ((normalize other).text, otherWorkflow) := by
      rw [← cutAt?_key hfile, h, cutAt?_key hother]
    rw [Option.some.injEq, Prod.mk.injEq, text_normalize_inj] at hcut
    exact hcut
  · rintro ⟨hnormal, rfl⟩
    rw [key, key, hnormal]

/-- The normal form of a path has no single points, and pairs of points only at its start, and
none of them after the root; it is its own normal form. The normal form of a path that goes on
along a relative one is the same from the normal form on. And of files without `#`, two workflows
have one key exactly if the files have one normal form and the workflows one name. -/
theorem canonical_keys :
    (∀ path : String,
      .here ∉ components (normalize path).text ∧
      (∃ (ups : Nat) (names : List String), components (normalize path).text =
          (if isAbsolute path then [.root] else []) ++
            (List.replicate ups .up ++ names.map .name) ∧
        (isAbsolute path = true → ups = 0)) ∧
      normalize (normalize path).text = normalize path) ∧
    (∀ directory path : String, isAbsolute path = false →
      normalize (join directory path) = normalize (join (normalize directory).text path)) ∧
    ∀ file other workflow otherWorkflow : String,
      '#' ∉ file.toList → '#' ∉ other.toList →
        (key file workflow = key other otherWorkflow ↔
          normalize file = normalize other ∧ workflow = otherWorkflow) := by
  refine ⟨fun path => ⟨?_, ?_, normalize_text path⟩, fun directory path hpath => ?_,
    fun _ _ _ _ => key_eq_iff⟩
  · obtain ⟨ups, names, h⟩ := exists_leads_normalize path
    rw [h.components_text]
    cases isAbsolute path <;> simp
  · obtain ⟨ups, names, h⟩ := exists_leads_normalize path
    exact ⟨ups, names.reverse, h.components_text, absolute_normalize path ▸ h.grounded⟩
  · rw [normalize_join hpath, normalize_join hpath, normalize_text]

example : key "a/./b//../c.toml" "main" = "a/c.toml#main" := by decide +kernel

end Reference

end WorkflowCompiler
