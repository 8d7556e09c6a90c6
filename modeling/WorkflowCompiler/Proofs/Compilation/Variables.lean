import Mathlib.Data.List.Sort
import WorkflowCompiler.Proofs.Compilation.Failures
import WorkflowCompiler.Proofs.Compilation.Runs

/-!
# What variables are bound to

Each declared variable is bound to what its input says, or else to what it was bound to before, or
else to its default (`Variable.BindsTo`). Four passes over two tables see to that: the inputs are
bound (`inputsBound`), then the defaults (`defaultsBound`), then no required variable may be
unbound, and last each value is checked (`Variable.Accepts`). A compilation fails because of missing
variables exactly when there are any, and with all of them (`Compiler.variables_bound`).
-/

namespace WorkflowCompiler

open Attempt

/-- What a declared variable is bound to, by the input for it and by what it was bound to before,
where there are these. -/
inductive Variable.BindsTo (d : Disk) (v : Variable) :
    Option String → Option Json → Option Json → Prop where
  /-- a variable of type file, to the contents of the file that the input names, trimmed -/
  | contents {path contents : String} {seeded : Option Json} (htype : v.type = some .file)
      (hread : d.readText path = .ok contents) :
      BindsTo d v (some path) seeded (some (.str (Text.trim contents)))
  /-- any other variable, to the input -/
  | text {text : String} {seeded : Option Json} (htype : v.type ≠ some .file) :
      BindsTo d v (some text) seeded (some (.str text))
  /-- without an input, to what it was bound to before -/
  | seeded {value : Json} : BindsTo d v none (some value) (some value)
  /-- if it was not bound either, to its default -/
  | default {value : Json} (hdefault : v.default = some value) :
      BindsTo d v none none (some value)
  /-- if there is none of these, to nothing -/
  | unset (hdefault : v.default = none) : BindsTo d v none none none

/-- The variable may have the text. -/
structure Variable.Accepts (v : Variable) (text : String) : Prop where
  /-- of type int, it is an integer of 64 bits, blanks around it apart -/
  integer : v.type = some .int → ∃ i : Int,
    Integer.readSigned? (Text.trimChars text.toList) = some i ∧
      -(Integer.signedSpan : Int) ≤ i ∧ i < Integer.signedSpan
  /-- of type bool, it is a truth value -/
  flag : v.type = some .bool → ∃ b, readFlag? text = some b
  /-- it is among the texts that are allowed -/
  member : ∀ allowed, v.allowed = some allowed → text ∈ allowed

/-- A required variable has no default, and neither an input nor a value from before binds it. -/
def Workflow.Lacks (w : Workflow) (inputs : Fields String) (seeded : Fields Json) (name : String) :
    Prop :=
  ∃ v, w.vars.get? name = some v ∧ v.required = true ∧ v.default = none ∧
    inputs.get? name = none ∧ seeded.get? name = none

/-- The inputs that name the files of variables name files that can be read. -/
def Workflow.Readable (d : Disk) (w : Workflow) (inputs : Fields String) : Prop :=
  ∀ entry ∈ inputs, ∀ v, w.vars.get? entry.1 = some v → v.type = some .file →
    ∃ contents, d.readText entry.2 = .ok contents

/-- The variables after those of a workflow are bound, whether they are as declared or not. -/
def Compiler.boundVars (c : Compiler) (d : Disk) (w : Workflow) (inputs : Fields String) :
    Fields Json :=
  (bindVariables d w inputs c.session).2.context.vars

/-- The variables of a workflow are bound as they are declared. -/
structure Compiler.BindsVariables (c : Compiler) (d : Disk) (w : Workflow)
    (inputs : Fields String) : Prop where
  /-- to its input, or else to what it was bound to before, or else to its default -/
  bindsTo : ∀ name v, w.vars.get? name = some v →
    v.BindsTo d (inputs.get? name) (c.session.context.vars.get? name)
      ((c.boundVars d w inputs).get? name)
  /-- variables are missing exactly if some are lacking, and these are named in order -/
  missing_iff : ∀ names, (c.compile d w inputs).1 = .error (.missingVariables names) ↔
    names ≠ [] ∧ names.Pairwise (· < ·) ∧
      ∀ name, name ∈ names ↔ w.Lacks inputs c.session.context.vars name
  /-- steps are compiled with these variables -/
  used : ∀ out, (c.compile d w inputs).1 = .ok out → ∃ compiled,
    (compileSteps c.settings w.steps
        (c.session.inRun c.settings.workflowId (c.boundVars d w inputs))).1 = .ok compiled ∧
      inOrder compiled = .ok out
  /-- and only if their texts are accepted, as far as they hold no placeholders -/
  accepts : ∀ out, (c.compile d w inputs).1 = .ok out → ∀ name v value,
    w.vars.get? name = some v → (c.boundVars d w inputs).get? name = some value →
      hasPlaceholders value.text = false → v.Accepts value.text

/-! ## Inputs -/

section Inputs

variable {d : Disk} {declared : Fields Variable}

/-- The value of an input of a declared variable. -/
theorem bindsTo_of_inputValue {name text : String} {v : Variable} {value : Json}
    (hv : declared.get? name = some v) (h : inputValue d declared name text = .ok value)
    (seeded : Option Json) : v.BindsTo d (some text) seeded (some value) := by
  rw [inputValue, hv, Option.bind_some] at h
  split at h
  · rename_i htype
    split at h
    · rename_i contents hread
      cases h
      exact .contents htype hread
    · cases h
  · rename_i htype
    cases h
    exact .text htype

/-- Inputs whose files can be read are bound. -/
theorem exists_inputsBound {w : Workflow} {inputs : Fields String} (h : w.Readable d inputs)
    (vars : Fields Json) : ∃ given, inputsBound d w.vars inputs vars = .ok given := by
  induction inputs generalizing vars with
  | nil => exact ⟨vars, rfl⟩
  | cons entry rest ih =>
    obtain ⟨name, text⟩ := entry
    have hvalue : ∃ value, inputValue d w.vars name text = .ok value := by
      rw [inputValue]
      split
      · rename_i htype
        obtain ⟨v, hv, htype⟩ := Option.bind_eq_some_iff.1 htype
        obtain ⟨contents, hread⟩ := h (name, text) List.mem_cons_self v hv htype
        rw [hread]
        exact ⟨_, rfl⟩
      · exact ⟨_, rfl⟩
    obtain ⟨value, hvalue⟩ := hvalue
    rw [inputsBound, hvalue]
    exact ih (fun entry hentry => h entry (List.mem_cons_of_mem _ hentry)) _

/-- A name that no input has stays bound to what it was bound to. -/
theorem get?_inputsBound_of_get?_eq_none {inputs : Fields String} {vars given : Fields Json}
    {name : String} (h : inputsBound d declared inputs vars = .ok given)
    (hname : inputs.get? name = none) : given.get? name = vars.get? name := by
  induction inputs generalizing vars with
  | nil =>
    cases h
    rfl
  | cons entry rest ih =>
    obtain ⟨other, text⟩ := entry
    rw [Fields.get?_cons] at hname
    split at hname
    · cases hname
    · rename_i hne
      rw [inputsBound] at h
      split at h
      · rw [ih h hname, Fields.get?_set, if_neg hne]
      · cases h

/-- A name that an input has is bound to the value of that. -/
theorem get?_inputsBound_of_get?_eq_some {inputs : Fields String} {vars given : Fields Json}
    {name text : String} (hnodup : inputs.names.Nodup)
    (h : inputsBound d declared inputs vars = .ok given) (hname : inputs.get? name = some text) :
    ∃ value, inputValue d declared name text = .ok value ∧ given.get? name = some value := by
  induction inputs generalizing vars with
  | nil => cases hname
  | cons entry rest ih =>
    obtain ⟨other, first⟩ := entry
    rw [Fields.names, List.map_cons, List.nodup_cons] at hnodup
    rw [inputsBound] at h
    split at h
    · rename_i value hvalue
      rw [Fields.get?_cons] at hname
      split at hname
      · rename_i heq
        cases heq
        cases hname
        -- no later input has the name again
        have hrest := Fields.get?_eq_none_iff.2 hnodup.1
        refine ⟨value, hvalue, ?_⟩
        rw [get?_inputsBound_of_get?_eq_none h hrest, Fields.get?_set, if_pos rfl]
      · exact ih hnodup.2 h hname
    · cases h

end Inputs

/-! ## Defaults -/

/-- A name is bound to what it was bound to, or else to its default. -/
theorem get?_defaultsBound {declared : Fields Variable} (hnodup : declared.names.Nodup)
    (vars : Fields Json) (name : String) :
    (defaultsBound declared vars).get? name =
      (vars.get? name).or ((declared.get? name).bind Variable.default) := by
  induction declared generalizing vars with
  | nil => simp [defaultsBound]
  | cons entry rest ih =>
    obtain ⟨other, v⟩ := entry
    rw [Fields.names, List.map_cons, List.nodup_cons] at hnodup
    have hrest := Fields.get?_eq_none_iff.2 hnodup.1
    rw [defaultsBound, Fields.get?_cons]
    by_cases hname : other = name
    · subst hname
      rw [if_pos rfl, Option.bind_some]
      rcases v.default with _ | value
      · rw [ih hnodup.2, hrest]
        rfl
      · rw [ih hnodup.2, hrest]
        rcases hold : vars.get? other with _ | old
        · simp [Fields.has, hold, Fields.get?_set]
        · simp [Fields.has, hold]
    · rw [if_neg hname]
      rcases v.default with _ | value
      · exact ih hnodup.2 vars
      · rw [ih hnodup.2]
        split
        · rfl
        · rw [Fields.get?_set, if_neg hname]

/-- Inputs before values from before, and these before defaults. -/
theorem bindsTo_defaultsBound {d : Disk} {declared : Fields Variable} {inputs : Fields String}
    {vars given : Fields Json} {name : String} {v : Variable} (hdeclared : declared.names.Nodup)
    (hinputs : inputs.names.Nodup) (hgiven : inputsBound d declared inputs vars = .ok given)
    (hv : declared.get? name = some v) :
    v.BindsTo d (inputs.get? name) (vars.get? name)
      ((defaultsBound declared given).get? name) := by
  rw [get?_defaultsBound hdeclared, hv, Option.bind_some]
  rcases hinput : inputs.get? name with _ | text
  · rw [get?_inputsBound_of_get?_eq_none hgiven hinput]
    rcases vars.get? name with _ | value
    · rcases hdefault : v.default with _ | value
      · exact .unset hdefault
      · exact .default hdefault
    · exact .seeded
  · obtain ⟨value, hvalue, hbound⟩ := get?_inputsBound_of_get?_eq_some hinputs hgiven hinput
    rw [hbound]
    exact bindsTo_of_inputValue hv hvalue _

/-- A variable without a default is left unbound if neither an input nor a value from before binds
it. -/
theorem Variable.BindsTo.eq_none_iff {d : Disk} {v : Variable} {input : Option String}
    {seeded bound : Option Json} (h : v.BindsTo d input seeded bound) :
    bound = none ↔ v.default = none ∧ input = none ∧ seeded = none := by
  cases h with
  | contents | text | seeded => simp
  | default hdefault => simp [hdefault]
  | unset hdefault => simp [hdefault]

/-! ## Required variables -/

/-- Missing variables are named in the order of their names. -/
theorem Context.missing_pairwise {declared : Fields Variable} (hdeclared : declared.Sorted)
    (c : Context) : (c.missing declared).Pairwise (· < ·) := by
  rw [Context.missing, Fields.names, List.pairwise_map]
  exact List.Pairwise.filter _ hdeclared

theorem Context.mem_missing_iff {declared : Fields Variable} (hdeclared : declared.Sorted)
    {c : Context} {name : String} :
    name ∈ c.missing declared ↔ ∃ v, declared.get? name = some v ∧ v.required = true ∧
      v.default = none ∧ c.vars.get? name = none := by
  have hhas : c.vars.has name = false ↔ c.vars.get? name = none := by
    rw [Fields.has, Option.isSome_eq_false_iff, Option.isNone_iff_eq_none]
  simp only [Context.missing, Fields.names, List.mem_map, List.mem_filter, Bool.and_eq_true,
    Bool.not_eq_true', Option.isNone_iff_eq_none]
  constructor
  · rintro ⟨⟨other, v⟩, ⟨hmem, ⟨hrequired, hdefault⟩, hunbound⟩, rfl⟩
    exact ⟨v, Fields.get?_of_mem hdeclared.names_nodup hmem, hrequired, hdefault, hhas.1 hunbound⟩
  · rintro ⟨v, hv, hrequired, hdefault, hunbound⟩
    exact ⟨(name, v), ⟨Fields.mem_of_get?_eq_some hv, ⟨hrequired, hdefault⟩, hhas.2 hunbound⟩, rfl⟩

/-- Required variables are missing with all their names. -/
theorem requireVariables_eq_missing_iff {c : Context} {declared : Fields Variable}
    {names : List String} :
    requireVariables c declared = .error (.missingVariables names) ↔
      names ≠ [] ∧ c.missing declared = names := by
  rw [requireVariables, Context.checkRequired]
  rcases c.missing declared with _ | ⟨name, rest⟩
  · refine ⟨fun h => ?_, fun h => absurd h.2.symm h.1⟩
    cases h
  · refine ⟨fun h => ?_, fun h => ?_⟩
    · cases h
      exact ⟨List.cons_ne_nil _ _, rfl⟩
    · rw [← h.2]
      rfl

/-! ## Values -/

theorem Integer.readSigned?_bounds {cs : List Char} {i : Int}
    (h : Integer.readSigned? cs = some i) :
    -(Integer.signedSpan : Int) ≤ i ∧ i < Integer.signedSpan := by
  unfold Integer.readSigned? at h
  have hfits := (Option.filter_eq_some_iff.1 h).2
  rwa [Integer.fitsSigned, Bool.and_eq_true, decide_eq_true_eq, decide_eq_true_eq] at hfits

/-- A text without placeholders that has no fault is accepted. -/
theorem Variable.accepts_of_fault?_eq_none {v : Variable} {text : String}
    (hplain : hasPlaceholders text = false) (h : v.fault? text = none) : v.Accepts text := by
  rw [Variable.fault?, if_neg (by simp [hplain])] at h
  split at h
  · cases h
  · rename_i hint
    split at h
    · cases h
    · rename_i hflag
      refine ⟨fun htype => ?_, fun htype => ?_, fun allowed hallowed => ?_⟩
      · rcases hread : Integer.readSigned? (Text.trimChars text.toList) with _ | i
        · exact absurd ⟨htype, by rw [hread]; rfl⟩ hint
        · exact ⟨i, rfl, Integer.readSigned?_bounds hread⟩
      · rcases hread : readFlag? text with _ | b
        · exact absurd ⟨htype, by rw [hread]; rfl⟩ hflag
        · exact ⟨b, rfl⟩
      · rw [hallowed] at h
        by_contra hmem
        simp [hmem] at h

theorem checkVariables_eq_ok {c : Context} {declared : Fields Variable}
    (h : checkVariables c declared = .ok ()) {name : String} {v : Variable}
    (hv : (name, v) ∈ declared) {value : Json} (hvalue : c.vars.get? name = some value) :
    v.fault? value.text = none := by
  induction declared with
  | nil => cases hv
  | cons entry rest ih =>
    obtain ⟨other, first⟩ := entry
    rw [checkVariables] at h
    split at h
    · cases h
    · rename_i hfault
      rcases List.mem_cons.1 hv with heq | hv
      · cases heq
        rw [hvalue, Option.bind_some] at hfault
        exact hfault
      · exact ih h hv

/-! ## Compiling -/

section Compiling

variable {c : Compiler} {d : Disk} {w : Workflow} {inputs : Fields String} {given : Fields Json}

/-- A compilation fails because of missing variables when some are missing after defaults are
bound. -/
theorem compile_eq_missing_iff (hfindings : w.findings = [])
    (hgiven : inputsBound d w.vars inputs c.session.context.vars = .ok given)
    {names : List String} :
    (c.compile d w inputs).1 = .error (.missingVariables names) ↔
      requireVariables { vars := defaultsBound w.vars given } w.vars =
        .error (.missingVariables names) := by
  change (compileWorkflow c.settings d w inputs c.session).1 = _ ↔ _
  have hvalid : ofExcept (requireValid c.settings.order w) c.session = (.ok (), c.session) := by
    rw [ofExcept_apply, requireValid_eq_ok_iff.2 hfindings]
  have hbind := bindVariables_of_inputsBound hgiven
  rw [compileWorkflow, bind_apply_of_ok hvalid]
  rcases hrequire : requireVariables { vars := defaultsBound w.vars given } w.vars with e | ⟨⟨⟩⟩
  · rw [hrequire] at hbind
    rw [bind_apply_of_error hbind]
    simp only [Except.error.injEq]
  · refine ⟨fun h => ?_, fun h => by cases h⟩
    rw [hrequire] at hbind
    rcases hcheck : checkVariables { vars := defaultsBound w.vars given } w.vars with e | ⟨⟨⟩⟩
    · obtain ⟨name, fault, rfl⟩ := checkVariables_eq_error hcheck
      rw [hcheck] at hbind
      rw [bind_apply_of_error hbind] at h
      cases h
    · -- what is left is to compile the steps, and that blames no variable
      rw [hcheck] at hbind
      rw [bind_apply_of_ok hbind] at h
      have havoids : (w.topBatch.compile c.settings).Avoids
          (· = CompileError.missingVariables names) :=
        avoids_compile_of_wellFormed (by rintro _ rfl h; exact h) (fun _ h => by cases h)
          fun _ hway => Workflow.wellFormed_of_hasBatch hfindings hway
      exact absurd rfl (((avoids_change _).bind fun _ _ => havoids) _ (fails_of_fst_eq_error h))

/-- The variables of a workflow without findings are bound as they are declared, whatever was bound
before, if the files that inputs name can be read. -/
theorem Compiler.variables_bound (hfindings : w.findings = []) (hdeclared : w.vars.Sorted)
    (hinputs : inputs.names.Nodup) (hreadable : w.Readable d inputs) :
    c.BindsVariables d w inputs := by
  obtain ⟨given, hgiven⟩ := exists_inputsBound hreadable c.session.context.vars
  have hbound : c.boundVars d w inputs = defaultsBound w.vars given := by
    rw [Compiler.boundVars, bindVariables_of_inputsBound hgiven]
    rfl
  have hbinds : ∀ name v, w.vars.get? name = some v →
      v.BindsTo d (inputs.get? name) (c.session.context.vars.get? name)
        ((defaultsBound w.vars given).get? name) := fun name v hv =>
    bindsTo_defaultsBound hdeclared.names_nodup hinputs hgiven hv
  refine ⟨by rwa [hbound], fun names => ?_, fun out hout => ?_, fun out hout => ?_⟩
  · rw [compile_eq_missing_iff hfindings hgiven, requireVariables_eq_missing_iff]
    have hmissing : ∀ name,
        name ∈ Context.missing { vars := defaultsBound w.vars given } w.vars ↔
          w.Lacks inputs c.session.context.vars name := by
      intro name
      rw [Context.mem_missing_iff hdeclared]
      refine exists_congr fun v => and_congr_right fun hv => and_congr_right fun _ => ?_
      rw [(hbinds name v hv).eq_none_iff, and_self_left]
    refine and_congr_right fun _ => ⟨?_, fun h => ?_⟩
    · rintro rfl
      exact ⟨Context.missing_pairwise hdeclared _, hmissing⟩
    · exact List.Pairwise.eq_of_mem_iff (Context.missing_pairwise hdeclared _) h.1 fun name =>
        (hmissing name).trans (h.2 name).symm
  · obtain ⟨-, vars, hvars, compiled, hsteps, horder⟩ := Compiler.compile_eq_ok_iff.1 hout
    obtain ⟨given', hgiven', rfl⟩ := boundVariables_eq_ok hvars
    cases hgiven.symm.trans hgiven'
    rw [hbound]
    exact ⟨compiled, hsteps, horder⟩
  · obtain ⟨-, vars, hvars, -⟩ := Compiler.compile_eq_ok_iff.1 hout
    obtain ⟨given', hgiven', rfl⟩ := boundVariables_eq_ok hvars
    cases hgiven.symm.trans hgiven'
    rw [hbound]
    intro name v value hv hvalue hplain
    exact Variable.accepts_of_fault?_eq_none hplain
      (checkVariables_eq_ok (checkVariables_of_boundVariables hvars)
        (Fields.mem_of_get?_eq_some hv) hvalue)

end Compiling

/-- A workflow with a variable for each place from which a value can come. -/
def noticeWorkflow : Workflow :=
  { name := "notice"
    vars :=
      [("level", { type := some .int, default := some (.int 3) }),
        ("notes", { type := some .file, required := true }),
        ("stage", { required := true, allowed := some ["beta", "stable"] }),
        ("token", { required := true })]
    steps := [{ id := "post", executor := some "shell", command := some "post {{stage}}" }] }

/-- A compiler whose context has one of the variables. -/
def noticeCompiler : Compiler where
  settings := { workflowId := "run" }
  session := { context := { vars := [("stage", .str "beta")] } }

/-- A disk with the file that the input for another one names. -/
def noticeDisk : Disk := { entries := [(["notes.txt"], .file (.text "two fixes\n"))] }

/-- Without an input for the last variable, that one is missing; with it, the workflow compiles. -/
theorem noticeWorkflow_bound :
    noticeCompiler.BindsVariables noticeDisk noticeWorkflow [("notes", "notes.txt")] ∧
    (noticeCompiler.compile noticeDisk noticeWorkflow [("notes", "notes.txt")]).1 =
      .error (.missingVariables ["token"]) ∧
    ∃ out, (noticeCompiler.compile noticeDisk noticeWorkflow
      [("notes", "notes.txt"), ("token", "t")]).1 = .ok out ∧
      noticeCompiler.BindsVariables noticeDisk noticeWorkflow
        [("notes", "notes.txt"), ("token", "t")] := by
  have hfindings : noticeWorkflow.findings = [] := by decide +kernel
  have hsorted : noticeWorkflow.vars.Sorted := by
    unfold Fields.Sorted
    decide +kernel
  have hread : noticeDisk.readText "notes.txt" = .ok "two fixes\n" :=
    eq_ok_of_toOption_eq_some (by decide +kernel)
  have hreadable : ∀ rest, (∀ entry ∈ rest, entry.1 = "token") →
      noticeWorkflow.Readable noticeDisk (("notes", "notes.txt") :: rest) := by
    intro rest hrest entry hentry v hv htype
    rcases List.mem_cons.1 hentry with rfl | hentry
    · exact ⟨_, hread⟩
    · rw [hrest entry hentry] at hv
      cases hv
      cases htype
  have hcompiles : (noticeCompiler.compile noticeDisk noticeWorkflow
      [("notes", "notes.txt"), ("token", "t")]).1.toOption.isSome = true := by
    decide +kernel
  obtain ⟨out, hok⟩ := exists_eq_ok_of_isSome hcompiles
  refine ⟨Compiler.variables_bound hfindings hsorted (by decide) (hreadable [] (by simp)),
    eq_error_of_error?_eq_some (by decide +kernel), out, hok,
    Compiler.variables_bound hfindings hsorted (by decide) (hreadable _ (by simp))⟩

end WorkflowCompiler
