import Mathlib.Data.List.Forall2
import WorkflowCompiler.CommandLine.Arguments

/-!
# Arguments in groups

An option and its value are two arguments that belong together, and a switch or a template is one by
itself (`ArgumentGroup`). Groups may come in any order, and each in any of its spellings
(`Spelled`); what follows an option is its value, whatever it looks like. What groups say is told
without going through them one by one (`Says`): the templates among them, the bindings in order, for
every other option the last of its values, and the switches that occur.

What was read so far says what is at hand. A further group keeps this up, or it is refused, and then
nothing that comes behind it matters (`ArgumentGroup.Spelling.read`, `Spelled.read`). So arguments
are read as a template with options exactly if they spell groups that say just this
(`Request.read_eq_compile_iff`).
-/

namespace WorkflowCompiler

open List (Forall₂)

/-! ## Groups and their spellings -/

/-- The names of a switch. -/
def Switch.flags : Switch → List String
  | validateOnly => ["--validate-only"]
  | shellQuoting => ["--shell-escape"]
  | verbose => ["--verbose", "-v"]

/-- The names of an option with a value. -/
def ValueOption.flags : ValueOption → List String
  | binding => ["--var"]
  | template => ["--workflow", "-w"]
  | runId => ["--run-id"]
  | assignee => ["--assignee"]
  | projectDirectory => ["--project-dir"]
  | output => ["--output", "-o"]

/-- Arguments that belong together. -/
inductive ArgumentGroup where
  /-- a switch -/
  | switch (s : Switch)
  /-- an option and its value -/
  | valued (option : ValueOption) (value : String)
  /-- a template without an option -/
  | positional (template : String)

/-- The arguments that a group may be written as. -/
inductive ArgumentGroup.Spelling : ArgumentGroup → List String → Prop
  | switch {s : Switch} {flag : String} (h : flag ∈ s.flags) : Spelling (.switch s) [flag]
  | valued {option : ValueOption} {flag : String} (h : flag ∈ option.flags) (value : String) :
      Spelling (.valued option value) [flag, value]
  | positional {template : String} (h : template.toList.head? ≠ some '-') :
      Spelling (.positional template) [template]

/-- The arguments are these groups, one behind the other. -/
inductive Spelled : List ArgumentGroup → List String → Prop
  | nil : Spelled [] []
  | cons {g : ArgumentGroup} {groups : List ArgumentGroup} {words arguments : List String}
      (hg : g.Spelling words) (h : Spelled groups arguments) :
      Spelled (g :: groups) (words ++ arguments)

namespace Spelled

variable {groups : List ArgumentGroup} {arguments : List String}

theorem switch {s : Switch} {flag : String} (hflag : flag ∈ s.flags)
    (h : Spelled groups arguments) : Spelled (.switch s :: groups) (flag :: arguments) :=
  .cons (.switch hflag) h

theorem valued {option : ValueOption} {flag : String} (hflag : flag ∈ option.flags)
    (value : String) (h : Spelled groups arguments) :
    Spelled (.valued option value :: groups) (flag :: value :: arguments) :=
  .cons (.valued hflag value) h

theorem positional {template : String} (htemplate : template.toList.head? ≠ some '-')
    (h : Spelled groups arguments) :
    Spelled (.positional template :: groups) (template :: arguments) :=
  .cons (.positional htemplate) h

end Spelled

/-! ## What groups say -/

/-- The values of an option. -/
def valuesOf (option : ValueOption) (groups : List ArgumentGroup) : List String :=
  groups.filterMap fun
    | .valued other value => if other = option then some value else none
    | _ => none

/-- The templates, those behind an option and those without one. -/
def templatesOf (groups : List ArgumentGroup) : List String :=
  groups.filterMap fun
    | .valued .template value => some value
    | .positional template => some template
    | _ => none

/-- The text binds the name to the value: the first equals sign stands between them, and there may
be blanks around the name. -/
def Binds (text : String) (binding : String × String) : Prop :=
  ∃ key, text = key ++ "=" ++ binding.2 ∧ '=' ∉ key.toList ∧
    Text.trim key = binding.1 ∧ binding.1 ≠ ""

/-- The switch is turned on. -/
def Options.isOn (o : Options) : Switch → Bool
  | .validateOnly => o.validateOnly
  | .shellQuoting => o.shellQuoting
  | .verbose => o.verbose

/-- The options with a value for an option that has one value only. -/
def Options.give (o : Options) (value : String) : ValueOption → Options
  | .runId => { o with runId := some value }
  | .assignee => { o with assignee := some value }
  | .projectDirectory => { o with projectDirectory := some value }
  | .output => { o with output := some value }
  | .binding | .template => o

/-- What groups say: the template, if there is one, and the options. -/
structure Says (groups : List ArgumentGroup) (template : Option String) (o : Options) : Prop where
  /-- there is no other template -/
  templates : templatesOf groups = template.toList
  /-- each binding is given by a text, and they stand in the same order -/
  bindings : Forall₂ Binds (valuesOf .binding groups) o.bindings
  /-- of several values the last one counts -/
  runId : o.runId = (valuesOf .runId groups).getLast?
  /-- of several values the last one counts -/
  assignee : o.assignee = (valuesOf .assignee groups).getLast?
  /-- of several values the last one counts -/
  projectDirectory : o.projectDirectory = (valuesOf .projectDirectory groups).getLast?
  /-- of several values the last one counts -/
  output : o.output = (valuesOf .output groups).getLast?
  /-- once is as good as often -/
  switches : ∀ s, o.isOn s = true ↔ .switch s ∈ groups

/-- Why groups say nothing, whatever else is said. -/
inductive Refused (groups : List ArgumentGroup) : ArgumentError → Prop
  | binding {text : String} (hmem : text ∈ valuesOf .binding groups)
      (h : ∀ binding, ¬ Binds text binding) : Refused groups (.badBinding text)
  | twice (h : 2 ≤ (templatesOf groups).length) : Refused groups .templateTwice
  | unexpected {text : String} (hmem : text ∈ templatesOf groups)
      (h : 2 ≤ (templatesOf groups).length) : Refused groups (.unexpected text)

variable {groups more : List ArgumentGroup} {g : ArgumentGroup} {words arguments : List String}
  {given : Option String} {o : Options} {option : ValueOption} {e : ArgumentError}

theorem valuesOf_append (option : ValueOption) (groups more : List ArgumentGroup) :
    valuesOf option (groups ++ more) = valuesOf option groups ++ valuesOf option more :=
  List.filterMap_append

theorem templatesOf_append (groups more : List ArgumentGroup) :
    templatesOf (groups ++ more) = templatesOf groups ++ templatesOf more :=
  List.filterMap_append

theorem Refused.append (h : Refused groups e) (more : List ArgumentGroup) :
    Refused (groups ++ more) e := by
  have hlength : (templatesOf groups).length ≤ (templatesOf (groups ++ more)).length := by
    rw [templatesOf_append, List.length_append]
    apply Nat.le_add_right
  cases h with
  | binding hmem h =>
    apply Refused.binding _ h
    rw [valuesOf_append]
    exact List.mem_append_left _ hmem
  | twice h => exact .twice (Nat.le_trans h hlength)
  | unexpected hmem h =>
    apply Refused.unexpected _ (Nat.le_trans h hlength)
    rw [templatesOf_append]
    exact List.mem_append_left _ hmem

/-! ## Bindings -/

theorem readBinding_eq_ok_iff {text : String} {binding : String × String} :
    readBinding text = .ok binding ↔ Binds text binding := by
  obtain ⟨name, value⟩ := binding
  constructor
  · intro h
    rw [readBinding] at h
    rcases hcut : Text.cutAt? '=' text with _ | ⟨key, after⟩
    · rw [hcut] at h
      cases h
    · simp only [hcut] at h
      split at h
      · cases h
      · rename_i hblank
        obtain ⟨rfl, rfl⟩ := Prod.mk.inj (Except.ok.inj h)
        obtain ⟨htext, hkey⟩ := Text.cutAt?_eq_some_iff.1 hcut
        refine ⟨key, ?_, hkey, rfl, fun hempty => hblank (Text.allBlank_iff_trim_eq.2 hempty)⟩
        apply String.toList_inj.1
        rw [htext, String.toList_append, String.toList_append, List.append_assoc]
        rfl
  · rintro ⟨key, rfl, hkey, rfl, hne⟩
    have hcut : Text.cutAt? '=' (key ++ "=" ++ value) = some (key, value) := by
      refine Text.cutAt?_eq_some_iff.2 ⟨?_, hkey⟩
      rw [String.toList_append, String.toList_append, List.append_assoc]
      rfl
    have hblank : ¬ Text.allBlank key = true := mt Text.allBlank_iff_trim_eq.1 hne
    simp only [readBinding, hcut, if_neg hblank]

theorem readBinding_eq_error {text : String} (h : readBinding text = .error e) :
    e = .badBinding text ∧ ∀ binding, ¬ Binds text binding := by
  constructor
  · rw [readBinding] at h
    split at h
    · split at h
      · exact (Except.error.inj h).symm
      · cases h
    · exact (Except.error.inj h).symm
  · intro binding hbinds
    rw [readBinding_eq_ok_iff.2 hbinds] at h
    cases h

/-- A text binds one name to one value. -/
theorem rightUnique_binds : Relator.RightUnique Binds := by
  intro text binding binding' h h'
  rw [← readBinding_eq_ok_iff] at h h'
  rw [h] at h'
  exact Except.ok.inj h'

/-! ## What an argument is -/

namespace Argument

theorem of_cases (text : String) :
    (text, of text) ∈ table ∨
      table.lookup text = none ∧
        of text = if text.toList.head? = some '-' then .unknown else .template := by
  rw [of]
  rcases hlookup : table.lookup text with _ | known
  · exact .inr ⟨rfl, rfl⟩
  · obtain ⟨before, after, htable, -⟩ := List.lookup_eq_some_iff.1 hlookup
    rw [htable]
    exact .inl (by simp)

/-- The arguments that are a known one are those that the table lists for it. -/
theorem of_eq_iff {a : Argument} {flags : List String} {text : String} (hunknown : a ≠ .unknown)
    (htemplate : a ≠ .template) (htable : ∀ entry ∈ table, entry.2 = a → entry.1 ∈ flags)
    (hflags : ∀ flag ∈ flags, of flag = a) : of text = a ↔ text ∈ flags := by
  constructor
  · intro h
    rcases of_cases text with hmem | ⟨-, hof⟩
    · exact htable _ hmem h
    · rw [hof] at h
      split at h
      · exact absurd h.symm hunknown
      · exact absurd h.symm htemplate
  · exact hflags text

theorem of_eq_switch_iff {text : String} {s : Switch} : of text = .switch s ↔ text ∈ s.flags := by
  apply of_eq_iff
  · nofun
  · nofun
  · cases s <;> decide
  · cases s <;> decide

theorem of_eq_valued_iff {text : String} : of text = .valued option ↔ text ∈ option.flags := by
  apply of_eq_iff
  · nofun
  · nofun
  · cases option <;> decide
  · cases option <;> decide

theorem of_eq_template_iff {text : String} :
    of text = .template ↔ text.toList.head? ≠ some '-' := by
  have htable : ∀ entry ∈ table, entry.2 ≠ .template ∧ entry.1.toList.head? = some '-' := by
    decide
  rcases of_cases text with hmem | ⟨-, hof⟩
  · obtain ⟨hof, hhead⟩ := htable _ hmem
    exact iff_of_false hof (not_not_intro hhead)
  · rw [hof]
    split <;> simp_all

end Argument

/-! ## One group -/

namespace Says

theorem nil : Says [] none {} := by
  refine ⟨rfl, .nil, rfl, rfl, rfl, rfl, fun s => ?_⟩
  cases s <;> simp [Options.isOn]

/-- Groups say one thing at most. -/
theorem unique {given' : Option String} {o' : Options} (h : Says groups given o)
    (h' : Says groups given' o') : given = given' ∧ o = o' := by
  have hgiven : given.toList = given'.toList := h.templates.symm.trans h'.templates
  have hbindings : o.bindings = o'.bindings :=
    List.right_unique_forall₂' rightUnique_binds h.bindings h'.bindings
  have hswitch : ∀ s, o.isOn s = o'.isOn s := by
    intro s
    rw [Bool.eq_iff_iff, h.switches, h'.switches]
  have hvalidate := hswitch .validateOnly
  have hquoting := hswitch .shellQuoting
  have hverbose := hswitch .verbose
  obtain ⟨-, -, hrun, hassignee, hproject, houtput, -⟩ := h
  obtain ⟨-, -, hrun', hassignee', hproject', houtput', -⟩ := h'
  constructor
  · cases given <;> cases given' <;> simp_all
  · cases o
    cases o'
    simp_all [Options.isOn]

/-- A further group adds what it says alone to what was said before. -/
theorem concat {given' : Option String} {o' : Options} (h : Says groups given o)
    (templates : given.toList ++ templatesOf [g] = given'.toList)
    (bindings : ∃ new, o'.bindings = o.bindings ++ new ∧
      Forall₂ Binds (valuesOf .binding [g]) new)
    (runId : o'.runId = (valuesOf .runId [g]).getLast?.or o.runId)
    (assignee : o'.assignee = (valuesOf .assignee [g]).getLast?.or o.assignee)
    (projectDirectory :
      o'.projectDirectory = (valuesOf .projectDirectory [g]).getLast?.or o.projectDirectory)
    (output : o'.output = (valuesOf .output [g]).getLast?.or o.output)
    (switches : ∀ s, o'.isOn s = true ↔ o.isOn s = true ∨ g = .switch s) :
    Says (groups ++ [g]) given' o' := by
  obtain ⟨new, hbindings, hnew⟩ := bindings
  refine ⟨?_, ?_, ?_, ?_, ?_, ?_, fun s => ?_⟩
  · rw [templatesOf_append, h.templates, templates]
  · rw [valuesOf_append, hbindings]
    exact List.rel_append h.bindings hnew
  · rw [valuesOf_append, List.getLast?_append, runId, h.runId]
  · rw [valuesOf_append, List.getLast?_append, assignee, h.assignee]
  · rw [valuesOf_append, List.getLast?_append, projectDirectory, h.projectDirectory]
  · rw [valuesOf_append, List.getLast?_append, output, h.output]
  · rw [switches, h.switches, List.mem_append, List.mem_singleton]
    exact or_congr_right eq_comm

theorem switch (h : Says groups given o) (s : Switch) :
    Says (groups ++ [.switch s]) given (o.turnOn s) := by
  apply h.concat
  · exact List.append_nil _
  · refine ⟨[], ?_, .nil⟩
    rw [List.append_nil]
    cases s <;> rfl
  · cases s <;> rfl
  · cases s <;> rfl
  · cases s <;> rfl
  · cases s <;> rfl
  · intro s'
    cases s <;> cases s' <;> simp [Options.isOn, Options.turnOn]

theorem positional (h : Says groups none o) (template : String) :
    Says (groups ++ [.positional template]) (some template) o :=
  h.concat rfl ⟨[], (List.append_nil _).symm, .nil⟩ rfl rfl rfl rfl (by simp)

theorem template (h : Says groups none o) (template : String) :
    Says (groups ++ [.valued .template template]) (some template) o :=
  h.concat rfl ⟨[], (List.append_nil _).symm, .nil⟩ rfl rfl rfl rfl (by simp)

theorem binding (h : Says groups given o) {text : String} {binding : String × String}
    (hbinds : Binds text binding) :
    Says (groups ++ [.valued .binding text]) given
      { o with bindings := o.bindings ++ [binding] } :=
  h.concat (List.append_nil _) ⟨[binding], rfl, .cons hbinds .nil⟩ rfl rfl rfl rfl
    (by simp [Options.isOn])

theorem give (h : Says groups given o) (value : String) (hbinding : option ≠ .binding)
    (htemplate : option ≠ .template) :
    Says (groups ++ [.valued option value]) given (o.give value option) := by
  have hkept : ∃ new, (o.give value option).bindings = o.bindings ++ new ∧
      Forall₂ Binds (valuesOf .binding [.valued option value]) new := by
    refine ⟨[], ?_, ?_⟩
    · rw [List.append_nil]
      cases option <;> rfl
    · cases option <;> simp_all [valuesOf]
  have hswitches : ∀ s, (o.give value option).isOn s = true ↔
      o.isOn s = true ∨ ArgumentGroup.valued option value = .switch s := by
    intro s
    cases option <;> cases s <;> simp [Options.give, Options.isOn]
  have htemplates : given.toList ++ templatesOf [.valued option value] = given.toList := by
    cases option <;> simp_all [templatesOf]
  apply h.concat htemplates hkept _ _ _ _ hswitches
  all_goals cases option <;> rfl

end Says

/-- A second template is refused. -/
theorem Says.two_le_templates (h : Says groups given o) (hgiven : given.isSome = true)
    (hg : templatesOf [g] ≠ []) : 2 ≤ (templatesOf (groups ++ [g])).length := by
  obtain ⟨template, rfl⟩ := Option.isSome_iff_exists.1 hgiven
  have hlength := List.length_pos_iff.2 hg
  rw [templatesOf_append, h.templates, List.length_append, Option.toList_some,
    List.length_singleton]
  omega

open Request (readFrom)

/-- Behind groups that were read, a further one is read as well or refused, whatever follows. -/
theorem ArgumentGroup.Spelling.read (hg : g.Spelling words) (h : Says groups given o) :
    (∃ given' o', Says (groups ++ [g]) given' o' ∧
      ∀ rest, readFrom given o (words ++ rest) = readFrom given' o' rest) ∨
    ∃ e, Refused (groups ++ [g]) e ∧ ∀ rest, readFrom given o (words ++ rest) = .error e := by
  cases hg with
  | @switch s flag hflag =>
    refine .inl ⟨given, o.turnOn s, h.switch s, fun rest => ?_⟩
    simp only [List.cons_append, List.nil_append, readFrom, Argument.of_eq_switch_iff.2 hflag]
  | @positional template hhead =>
    have hof := Argument.of_eq_template_iff.2 hhead
    cases given with
    | none =>
      refine .inl ⟨some template, o, h.positional template, fun rest => ?_⟩
      simp [readFrom, hof]
    | some first =>
      have htwo := h.two_le_templates (g := .positional template) rfl (List.cons_ne_nil _ _)
      refine .inr ⟨.unexpected template, .unexpected ?_ htwo, fun rest => ?_⟩
      · rw [templatesOf_append]
        exact List.mem_append_right _ List.mem_cons_self
      · simp [readFrom, hof]
  | @valued option flag hflag value =>
    have hof := Argument.of_eq_valued_iff.2 hflag
    cases option with
    | template =>
      cases given with
      | none =>
        refine .inl ⟨some value, o, h.template value, fun rest => ?_⟩
        simp [readFrom, hof]
      | some first =>
        have htwo := h.two_le_templates (g := .valued .template value) rfl (List.cons_ne_nil _ _)
        refine .inr ⟨.templateTwice, .twice htwo, fun rest => ?_⟩
        simp [readFrom, hof]
    | binding =>
      rcases hread : readBinding value with e | binding
      · obtain ⟨rfl, hnone⟩ := readBinding_eq_error hread
        refine .inr ⟨.badBinding value, .binding ?_ hnone, fun rest => ?_⟩
        · rw [valuesOf_append]
          exact List.mem_append_right _ List.mem_cons_self
        · simp [readFrom, hof, hread]
      · refine .inl ⟨_, _, h.binding (readBinding_eq_ok_iff.1 hread), fun rest => ?_⟩
        simp [readFrom, hof, hread]
    | _ =>
      refine .inl ⟨given, _, h.give value nofun nofun, fun rest => ?_⟩
      simp [readFrom, hof, Options.give]

/-! ## All groups -/

theorem Spelled.read (hspelled : Spelled more arguments) (h : Says groups given o) :
    (∃ given' o', Says (groups ++ more) given' o' ∧
      ∀ rest, readFrom given o (arguments ++ rest) = readFrom given' o' rest) ∨
    ∃ e, Refused (groups ++ more) e ∧ ∀ rest, readFrom given o (arguments ++ rest) = .error e := by
  induction hspelled generalizing groups given o with
  | nil =>
    refine .inl ⟨given, o, ?_, fun rest => rfl⟩
    rw [List.append_nil]
    exact h
  | @cons g more words arguments hg hspelled ih =>
    rw [List.append_cons]
    rcases hg.read h with ⟨given₁, o₁, hsaid, hread⟩ | ⟨e, hrefused, hread⟩
    · rcases ih hsaid with ⟨given₂, o₂, hsaid₂, hread₂⟩ | ⟨e, hrefused, hread₂⟩
      · refine .inl ⟨given₂, o₂, hsaid₂, fun rest => ?_⟩
        rw [List.append_assoc, hread, hread₂]
      · refine .inr ⟨e, hrefused, fun rest => ?_⟩
        rw [List.append_assoc, hread, hread₂]
    · refine .inr ⟨e, hrefused.append more, fun rest => ?_⟩
      rw [List.append_assoc, hread]

/-- Where something is read, a group comes first. -/
theorem exists_spelling_of_readFrom {text template : String} {rest : List String} {o' : Options}
    (hread : readFrom given o (text :: rest) = .ok (.compile template o')) :
    ∃ (g : ArgumentGroup) (words rest' : List String), text :: rest = words ++ rest' ∧
      rest'.length ≤ rest.length ∧ g.Spelling words := by
  rw [readFrom] at hread
  rcases hof : Argument.of text with _ | _ | s | option | _ | _
  · simp [hof] at hread
  · simp [hof] at hread
  · exact ⟨.switch s, [text], rest, rfl, Nat.le_refl _, .switch (Argument.of_eq_switch_iff.1 hof)⟩
  · simp only [hof] at hread
    split at hread
    · cases hread
    · cases rest with
      | nil => cases hread
      | cons value rest =>
        refine ⟨.valued option value, [text, value], rest, rfl, ?_, ?_⟩
        · rw [List.length_cons]
          omega
        · exact .valued (Argument.of_eq_valued_iff.1 hof) value
  · simp [hof] at hread
  · exact ⟨.positional text, [text], rest, rfl, Nat.le_refl _,
      .positional (Argument.of_eq_template_iff.1 hof)⟩

theorem exists_spelled_of_readFrom {template : String} {o' : Options} (h : Says groups given o)
    (hread : readFrom given o arguments = .ok (.compile template o')) :
    ∃ more, Spelled more arguments ∧ Says (groups ++ more) (some template) o' := by
  -- a group takes one argument or two
  induction hlength : arguments.length using Nat.strongRecOn
    generalizing arguments groups given o with
  | ind n ih =>
    subst hlength
    cases arguments with
    | nil =>
      refine ⟨[], .nil, ?_⟩
      rw [List.append_nil]
      cases given with
      | none => cases hread
      | some first =>
        cases hread
        exact h
    | cons text rest =>
      obtain ⟨g, words, rest', hsplit, hle, hg⟩ := exists_spelling_of_readFrom hread
      rw [hsplit] at hread ⊢
      rcases hg.read h with ⟨given₁, o₁, hsaid, hfrom⟩ | ⟨e, -, hfrom⟩
      · rw [hfrom] at hread
        obtain ⟨more, hspelled, hmore⟩ := ih rest'.length (by simp; omega) hsaid hread rfl
        refine ⟨g :: more, .cons hg hspelled, ?_⟩
        rw [List.append_cons]
        exact hmore
      · rw [hfrom] at hread
        cases hread

/-- Groups that are refused say nothing. -/
theorem Refused.says_nothing (h : Refused groups e) : ¬ Says groups given o := by
  intro hsaid
  have hlength : (templatesOf groups).length ≤ 1 := by
    rw [hsaid.templates]
    cases given <;> simp
  cases h with
  | binding hmem hnone =>
    have hboth : Forall₂ (fun text binding => (∃ binding, Binds text binding) ∧ Binds text binding)
        (valuesOf .binding groups) o.bindings :=
      hsaid.bindings.imp fun _ binding hbinds => ⟨⟨binding, hbinds⟩, hbinds⟩
    obtain ⟨binding, hbinds⟩ := ((List.forall₂_and_left _ _).1 hboth).1 _ hmem
    exact hnone binding hbinds
  | twice h => omega
  | unexpected _ h => omega

namespace Request

/-- Groups are read as what they say, or refused, whatever follows. -/
theorem read_append (h : Spelled groups arguments) :
    (∃ given o, Says groups given o ∧ ∀ rest, read (arguments ++ rest) = readFrom given o rest) ∨
    ∃ e, Refused groups e ∧ ∀ rest, read (arguments ++ rest) = .error e :=
  h.read .nil

/-- Arguments are read as a template with options exactly if they are groups, in any order and any
spelling, that say this template once and these options. Groups that say two templates are refused,
whatever follows them, and groups that say none are an error. -/
theorem read_eq_compile_iff :
    (∀ (arguments : List String) (template : String) (o : Options),
      read arguments = .ok (.compile template o) ↔
        ∃ groups, Spelled groups arguments ∧ Says groups (some template) o) ∧
    (∀ (groups : List ArgumentGroup) (arguments rest : List String), Spelled groups arguments →
      2 ≤ (templatesOf groups).length →
        ∃ e, Refused groups e ∧ read (arguments ++ rest) = .error e) ∧
    ∀ (groups : List ArgumentGroup) (arguments : List String), Spelled groups arguments →
      templatesOf groups = [] →
        ∃ e, (e = .noTemplate ∨ Refused groups e) ∧ read arguments = .error e := by
  refine ⟨fun arguments template o => ⟨fun h => ?_, ?_⟩,
    fun groups arguments rest hspelled htwo => ?_, fun groups arguments hspelled hnone => ?_⟩
  · exact exists_spelled_of_readFrom .nil h
  · rintro ⟨groups, hspelled, hsaid⟩
    rcases read_append hspelled with ⟨given, o', hsaid', hread⟩ | ⟨e, hrefused, -⟩
    · obtain ⟨rfl, rfl⟩ := hsaid.unique hsaid'
      have hread := hread []
      rw [List.append_nil] at hread
      exact hread
    · exact absurd hsaid hrefused.says_nothing
  · rcases read_append hspelled with ⟨given, o, hsaid, -⟩ | ⟨e, hrefused, hread⟩
    · rw [hsaid.templates] at htwo
      cases given <;> simp at htwo
    · exact ⟨e, hrefused, hread rest⟩
  · rcases read_append hspelled with ⟨given, o, hsaid, hread⟩ | ⟨e, hrefused, hread⟩
    · have hread := hread []
      rw [hsaid.templates, Option.toList_eq_nil_iff] at hnone
      rw [List.append_nil, hnone] at hread
      exact ⟨.noTemplate, .inl rfl, hread⟩
    · have hread := hread []
      rw [List.append_nil] at hread
      exact ⟨e, .inr hrefused, hread⟩

/-- Arguments whose values look like options. -/
def hotfixArguments : List String :=
  ["-v", "--var", "note=a=b", "--run-id", "--workflow", "release#hotfix", "--verbose", "-o", "-w",
    "--var", " version =1.4.0"]

/-- The groups of these arguments. -/
def hotfixGroups : List ArgumentGroup :=
  [.switch .verbose, .valued .binding "note=a=b", .valued .runId "--workflow",
    .positional "release#hotfix", .switch .verbose, .valued .output "-w",
    .valued .binding " version =1.4.0"]

/-- What these arguments ask for. -/
def hotfixOptions : Options :=
  { bindings := [("note", "a=b"), ("version", "1.4.0")], runId := some "--workflow"
    output := some "-w", verbose := true }

/-- The values are read as values, a second template is refused even if help is asked for behind it,
and a switch alone is no request. -/
theorem hotfixArguments_read :
    Spelled hotfixGroups hotfixArguments ∧
    Says hotfixGroups (some "release#hotfix") hotfixOptions ∧
    read hotfixArguments = .ok (.compile "release#hotfix" hotfixOptions) ∧
    (∃ e, Refused [.positional "a", .valued .template "--help"] e ∧
      read (["a", "-w", "--help"] ++ ["--help"]) = .error e) ∧
    ∃ e, (e = .noTemplate ∨ Refused [.switch .verbose] e) ∧ read ["-v"] = .error e := by
  obtain ⟨hread, htwice, hnone⟩ := read_eq_compile_iff
  have hspelled : Spelled hotfixGroups hotfixArguments :=
    .switch (by decide) <| .valued (by decide) _ <| .valued (by decide) _ <|
      .positional (by decide) <| .switch (by decide) <| .valued (by decide) _ <|
        .valued (by decide) _ .nil
  have hbindings : Forall₂ Binds ["note=a=b", " version =1.4.0"] hotfixOptions.bindings :=
    .cons ⟨"note", by decide⟩ <| .cons ⟨" version ", by decide⟩ .nil
  have hsaid : Says hotfixGroups (some "release#hotfix") hotfixOptions := by
    refine ⟨rfl, hbindings, rfl, rfl, rfl, rfl, fun s => ?_⟩
    cases s <;> simp [hotfixGroups, hotfixOptions, Options.isOn]
  refine ⟨hspelled, hsaid, (hread _ _ _).2 ⟨_, hspelled, hsaid⟩, ?_, ?_⟩
  · exact htwice _ _ _ (.positional (by decide) <| .valued (by decide) _ .nil) (by decide)
  · exact hnone _ _ (.switch (by decide) .nil) rfl

end Request

end WorkflowCompiler
