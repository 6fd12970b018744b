import PropertyTable.Proofs.Build.Run
import PropertyTable.Proofs.CommandLine.Arguments

/-!
# The program's answers

The exit status tells whether a build was asked for and succeeded, or a text was asked for.  Only a
build touches files, it does so as if it had been run by itself, and how much is told about it makes
no difference to the files or the status.  All this holds whatever the parser of arguments is.
-/

namespace PropertyTable.Program

variable {σ : Type} {parse : Parser} {disk : Disk (StateM σ)} {arguments : List String} {state : σ}

/-- Without a build nothing is touched. -/
theorem run_execute_of_stop {stop : Stop} (h : parse arguments = .error stop) :
    (execute parse disk arguments).run state = (stop.answer, state) := by
  rw [execute, h]
  rfl

/-- A build is run as it stands in the request. -/
theorem run_execute_of_request {r : Request} (h : parse arguments = .ok r) :
    (execute parse disk arguments).run state
      = (r.answer ((r.build.run disk).run state).1, ((r.build.run disk).run state).2) := by
  rw [execute, h]
  rfl

/-! ## Statuses -/

namespace Stop

variable {stop : Stop}

theorem status_answer_eq_zero_iff : stop.answer.status = 0 ↔ stop.usesErrorStream = false := by
  unfold answer
  cases stop.usesErrorStream <;> simp [failureStatus]

theorem status_answer_eq_one_iff : stop.answer.status = 1 ↔ stop.usesErrorStream = true := by
  unfold answer
  cases stop.usesErrorStream <;> simp [failureStatus]

/-- A fault of usage is what is neither of the other two. -/
theorem kind_eq_usage_iff : stop.kind = .usage ↔ ¬(stop.kind = .help ∨ stop.kind = .version) := by
  cases stop.kind <;> simp

end Stop

namespace Request

theorem output_answer (r : Request) (done : Logged Report) : (r.answer done).output = "" := by
  unfold answer
  cases done.outcome <;> rfl

/-- The status tells how the build ended, and nothing of the level. -/
theorem status_answer (r : Request) (done : Logged Report) :
    (r.answer done).status = if done.outcome.toBool then 0 else 1 := by
  unfold answer
  cases done.outcome <;> rfl

theorem status_answer_eq_zero_iff (r : Request) (done : Logged Report) :
    (r.answer done).status = 0 ↔ ∃ report, done.outcome = .ok report := by
  rw [status_answer]
  cases done.outcome <;> simp [Except.toBool]

theorem status_answer_eq_one_iff (r : Request) (done : Logged Report) :
    (r.answer done).status = 1 ↔ ∃ failure, done.outcome = .error failure := by
  rw [status_answer]
  cases done.outcome <;> simp [Except.toBool]

end Request

/-! ## All arguments -/

/-- The contract of the program, over any files and for any parser of arguments that uses the
standard error for all but the texts about the program.  Arguments that ask for no build leave the
files as they are; the status is zero if help or the version is asked for, and one for every fault
of usage.  Arguments that ask for a build leave the files that this build leaves, nothing on the
standard output, and the status zero if the build succeeds and one if it fails.  Arguments that ask
for the same build leave the same files and the same status, whatever they say of how much is to be
told. -/
theorem execute_leaves_files_and_status (parse : Parser)
    (hstream : ∀ arguments stop, parse arguments = .error stop →
      (stop.usesErrorStream = false ↔ stop.kind = .help ∨ stop.kind = .version))
    (disk : Disk (StateM σ)) (arguments : List String) (state : σ) :
    let done := (execute parse disk arguments).run state
    (∀ stop, parse arguments = .error stop →
      done.2 = state ∧ (done.1.status = 0 ↔ stop.kind = .help ∨ stop.kind = .version) ∧
      (done.1.status = 1 ↔ stop.kind = .usage)) ∧
    (∀ r, parse arguments = .ok r →
      done.2 = ((r.build.run disk).run state).2 ∧ done.1.output = "" ∧
      (done.1.status = 0 ↔ ∃ report, ((r.build.run disk).run state).1.outcome = .ok report) ∧
      (done.1.status = 1 ↔ ∃ failure, ((r.build.run disk).run state).1.outcome = .error failure)) ∧
    ∀ arguments' r r', parse arguments = .ok r → parse arguments' = .ok r' → r.build = r'.build →
      ((execute parse disk arguments').run state).2 = done.2 ∧
        ((execute parse disk arguments').run state).1.status = done.1.status := by
  intro done
  refine ⟨?_, ?_, ?_⟩
  · intro stop h
    have hd : done = (stop.answer, state) := run_execute_of_stop h
    have htext := hstream arguments stop h
    rw [hd]
    refine ⟨rfl, Stop.status_answer_eq_zero_iff.trans htext, ?_⟩
    rw [Stop.status_answer_eq_one_iff, Stop.kind_eq_usage_iff, ← htext, Bool.not_eq_false]
  · intro r h
    have hd : done = _ := run_execute_of_request h
    rw [hd]
    exact ⟨rfl, r.output_answer _, r.status_answer_eq_zero_iff _, r.status_answer_eq_one_iff _⟩
  · intro arguments' r r' h h' hb
    have hd : done = _ := run_execute_of_request h
    rw [hd, run_execute_of_request h', ← hb]
    refine ⟨rfl, ?_⟩
    show (r'.answer _).status = (r.answer _).status
    rw [Request.status_answer, Request.status_answer]

/-- Where a build is asked for with and without switches for what is told, where help is asked for,
and where no property is named. -/
theorem execute_leaves_files_and_status_samples :
    let t := Build.withListing "0041\n"
    (∀ arguments stop, CommandLine.parse arguments = .error stop →
      (stop.usesErrorStream = false ↔ stop.kind = .help ∨ stop.kind = .version)) ∧
    (((execute CommandLine.parse FileTree.disk ["XID_START"]).run t).1.status = 0 ∧
      ((execute CommandLine.parse FileTree.disk ["XID_START"]).run t).1.output = "") ∧
    (((execute CommandLine.parse FileTree.disk ["-q", " XID_START", "--format=c", "-vv"]).run t).2
        = ((execute CommandLine.parse FileTree.disk ["XID_START"]).run t).2 ∧
      ((execute CommandLine.parse FileTree.disk
        ["-q", " XID_START", "--format=c", "-vv"]).run t).1.status
        = ((execute CommandLine.parse FileTree.disk ["XID_START"]).run t).1.status) ∧
    (((execute CommandLine.parse FileTree.disk ["-qh", "XID_START"]).run t).2 = t ∧
      ((execute CommandLine.parse FileTree.disk ["-qh", "XID_START"]).run t).1.status = 0) ∧
    ((execute CommandLine.parse FileTree.disk ["XID_END", "-v"]).run t).2 = t ∧
      ((execute CommandLine.parse FileTree.disk ["XID_END", "-v"]).run t).1.status = 1 := by
  intro t
  obtain ⟨r, hr⟩ : ∃ r : Request, r = ⟨⟨.xidStart, .c, ".", "."⟩, 0, false⟩ := ⟨_, rfl⟩
  have hplain : CommandLine.parse ["XID_START"] = .ok r := by
    rw [hr]
    decide +kernel
  have hquiet : CommandLine.parse ["-q", " XID_START", "--format=c", "-vv"]
      = .ok ⟨r.build, 2, true⟩ := by
    rw [hr]
    decide +kernel
  have hhelp : CommandLine.parse ["-qh", "XID_START"] = .error CommandLine.Refusal.shortHelp.stop :=
    CommandLine.parse_eq_error_iff.mpr ⟨.shortHelp, by decide +kernel, rfl⟩
  obtain ⟨fault, hfault, husage⟩ : ∃ stop, CommandLine.parse ["XID_END", "-v"] = .error stop ∧
      stop.kind = .usage :=
    CommandLine.exists_usage_of_no_property (by decide +kernel) (by decide +kernel)
  have hrun : ∃ report, ((r.build.run FileTree.disk).run t).1.outcome = .ok report := by
    obtain ⟨p, hp⟩ := Build.exists_render_ok r.build "0041\n" (by decide)
    have htext : t.readText r.build.inputPath = .ok "0041\n" := by
      rw [hr]
      decide
    have hfree : t.Replaceable r.build.outputPath := by
      rw [hr]
      exact ⟨["", "XID_START.c"], ["", "XID_START.c.tmp"], by decide, by decide, by decide,
        by decide⟩
    exact ⟨_, Build.run_outcome_eq_ok_iff.mpr
      ⟨p, Build.prepare_outcome_eq_ok_iff.mpr ⟨_, htext, hp⟩, hfree, rfl⟩⟩
  have hcontract := execute_leaves_files_and_status CommandLine.parse
    (fun _ _ ↦ CommandLine.usesErrorStream_of_parse) FileTree.disk
  obtain ⟨-, hbuild, hsame⟩ := hcontract ["XID_START"] t
  obtain ⟨-, hout, hstatus, -⟩ := hbuild r hplain
  obtain ⟨htree, hzero, -⟩ := (hcontract ["-qh", "XID_START"] t).1 _ hhelp
  obtain ⟨htree', -, hone⟩ := (hcontract ["XID_END", "-v"] t).1 fault hfault
  exact ⟨fun _ _ ↦ CommandLine.usesErrorStream_of_parse, ⟨hstatus.mpr hrun, hout⟩,
    hsame _ _ _ hplain hquiet rfl, ⟨htree, hzero.mpr (.inl rfl)⟩, htree', hone.mpr husage⟩

end PropertyTable.Program
