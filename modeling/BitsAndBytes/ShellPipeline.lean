import BitsAndBytes.DescriptorTable
import BitsAndBytes.OperationRuns

/-! # The pipelines of `sh.c` -/

namespace BitsAndBytes

open List Option

namespace ShellPipeline

open DescriptorTable OperationRuns Function

inductive OpenFile
  | inherited (file : Nat)
  | pipeRead (i : Nat)
  | pipeWrite (i : Nat)
deriving DecidableEq

def maxArgs : Nat := 64

def tokens (delimiter : Char) (text : List Char) : List (List Char) :=
  (text.splitOn delimiter).filter (· ≠ [])

structure Shell where
  table : Table OpenFile
  numCommands : Nat
  i : Nat
  pipes : Int × Int
  inputFd : Int
  closed : List (Option OpenFile)

/-- A child when it calls `execvp`. -/
structure Child where
  args : List (List Char)
  table : Table OpenFile

structure Stage where
  command : List Char
  created : Int × Int

def Shell.pipe (shell : Shell) (created : Int × Int) : Shell :=
  { shell with
    pipes := created
    table := update (update shell.table created.1 (some (.pipeRead shell.i)))
      created.2 (some (.pipeWrite shell.i)) }

/-- `close` for a descriptor that is not the standard one. -/
def Shell.closeUnless (shell : Shell) (standard fd : Int) : Shell :=
  if fd ≠ standard then
    { shell with table := close shell.table fd, closed := shell.closed ++ [shell.table fd] }
  else shell

/-- `execute_command`: the child that it creates. -/
def executeCommand (table : Table OpenFile) (args : List (List Char)) (inputFd outputFd : Int) :
    Child :=
  ⟨args, redirect (redirect table inputFd 0) outputFd 1⟩

def iteration (shell : Shell) (stage : Stage) : Option (Shell × Child) :=
  let args := tokens ' ' stage.command
  if args.length < maxArgs then
    let shell := if shell.i < shell.numCommands - 1 then shell.pipe stage.created else shell
    let outputFd := if shell.i = shell.numCommands - 1 then 1 else shell.pipes.2
    let child := executeCommand shell.table args shell.inputFd outputFd
    let shell := (shell.closeUnless 0 shell.inputFd).closeUnless 1 outputFd
    some ({ shell with inputFd := shell.pipes.1, i := shell.i + 1 }, child)
  else none

def inheritedTable (inherited : Table Nat) : Table OpenFile :=
  fun fd => (inherited fd).map .inherited

/-- The shell before the loop; nothing is known of `pipes`. -/
def start (inherited : Table Nat) (pipes : Int × Int) (numCommands : Nat) : Shell :=
  ⟨inheritedTable inherited, numCommands, 0, pipes, 0, []⟩

def stages (line : List Char) (created : Nat → Int × Int) : List Stage :=
  (tokens '|' line).mapIdx fun i command => ⟨command, created i⟩

def runLine (inherited : Table Nat) (pipes : Int × Int) (line : List Char)
    (created : Nat → Int × Int) : Option (Shell × List Child) :=
  if (tokens '|' line).length < maxArgs then
    run iteration (start inherited pipes (tokens '|' line).length) (stages line created)
  else none

/-- `pipe` returns two descriptors above 2 that are not open. -/
def PipeFresh (shell : Shell) (stage : Stage) : Prop :=
  shell.i < shell.numCommands - 1 →
    2 < stage.created.1 ∧ 2 < stage.created.2 ∧ stage.created.1 ≠ stage.created.2 ∧
      shell.table stage.created.1 = none ∧ shell.table stage.created.2 = none

/-- The standard input and output of child `i` of `n` are its pipes. -/
structure Wired (inherited : Table Nat) (n i : Nat) (child : Child) : Prop where
  input : child.table 0 = if i = 0 then inheritedTable inherited 0 else some (.pipeRead (i - 1))
  output : child.table 1 =
    if i + 1 = n then inheritedTable inherited 1 else some (.pipeWrite i)

def pipeEnds (n : Nat) : List (Option OpenFile) :=
  (range n).flatMap fun i => [some (.pipeWrite i), some (.pipeRead i)]

/-- All children are wired, and the shell has closed its pipe ends. -/
structure Plumbed (inherited : Table Nat) (n : Nat) (shell : Shell) (children : List Child) :
    Prop where
  count : children.length = n
  wired : ∀ i child, children[i]? = some child → Wired inherited n i child
  closed : shell.closed = pipeEnds (n - 1)
  table : shell.table = inheritedTable inherited

def inputTable (inherited : Table Nat) (i : Nat) : Table OpenFile :=
  if i = 0 then inheritedTable inherited
  else update (inheritedTable inherited) 0 (some (.pipeRead (i - 1)))

def childTable (inherited : Table Nat) (n i : Nat) (kept : Int) : Table OpenFile :=
  if i + 1 = n then inputTable inherited i
  else update (update (inputTable inherited i) kept (some (.pipeRead i))) 1
    (some (.pipeWrite i))

/-- The shell between two forks keeps at most the read end of the last pipe. -/
inductive Between (inherited : Table Nat) (n : Nat) : Shell → Prop
  | first {shell : Shell} (index : shell.i = 0) (input : shell.inputFd = 0)
      (table : shell.table = inheritedTable inherited) (closed : shell.closed = []) :
      Between inherited n shell
  | middle {shell : Shell} {j : Nat} (index : shell.i = j + 1) (more : j + 1 < n)
      (above : 2 < shell.inputFd) (fresh : inheritedTable inherited shell.inputFd = none)
      (table : shell.table = update (inheritedTable inherited) shell.inputFd (some (.pipeRead j)))
      (closed : shell.closed ++ [some (.pipeRead j)] = pipeEnds (j + 1)) :
      Between inherited n shell
  | last {shell : Shell} (index : shell.i = n) (table : shell.table = inheritedTable inherited)
      (closed : shell.closed = pipeEnds (n - 1)) : Between inherited n shell

variable {children : List Child}

section

variable {inherited : Table Nat} {n i j : Nat} {shell : Shell} {stage : Stage}
  {args : List (List Char)} {fd : Int} {created : Int × Int}

theorem pipeEnds_succ :
    pipeEnds (n + 1) = pipeEnds n ++ [some (.pipeWrite n), some (.pipeRead n)] := by
  simp [pipeEnds, range_succ]

variable {table : Table OpenFile} {standard kept : Int}

theorem redirect_created (readAbove : 2 < created.1) (writeAbove : 2 < created.2)
    (different : created.1 ≠ created.2) (readOther : created.1 ≠ fd) (writeOther : created.2 ≠ fd)
    (writeFresh : redirect table fd 0 created.2 = none) :
    redirect (redirect (update (update table created.1 (some (.pipeRead i)))
        created.2 (some (.pipeWrite i))) fd 0) created.2 1 =
      update (update (redirect table fd 0) created.1 (some (.pipeRead i))) 1
        (some (.pipeWrite i)) := by
  rw [redirect_update_of_ne writeOther (by omega), redirect_update_of_ne readOther (by omega),
    redirect_update_self (by omega)]
  rw [update_of_ne different.symm]
  exact writeFresh

theorem executeCommand_table {inputFd outputFd : Int} :
    (executeCommand table args inputFd outputFd).table =
      redirect (redirect table inputFd 0) outputFd 1 := rfl

@[simp]
theorem closeUnless_i : (shell.closeUnless standard fd).i = shell.i := by
  rw [Shell.closeUnless]
  split <;> rfl

@[simp]
theorem closeUnless_numCommands :
    (shell.closeUnless standard fd).numCommands = shell.numCommands := by
  rw [Shell.closeUnless]
  split <;> rfl

@[simp]
theorem pipe_i : (shell.pipe created).i = shell.i := rfl

@[simp]
theorem pipe_numCommands : (shell.pipe created).numCommands = shell.numCommands := rfl

@[simp]
theorem pipe_inputFd : (shell.pipe created).inputFd = shell.inputFd := rfl

@[simp]
theorem pipe_pipes : (shell.pipe created).pipes = created := rfl

theorem closeUnless_self : shell.closeUnless standard standard = shell :=
  if_neg (not_not.mpr rfl)

theorem inputTable_eq_none (above : 2 < fd) (fresh : inheritedTable inherited fd = none) :
    inputTable inherited i fd = none := by
  rw [inputTable]
  split
  · exact fresh
  · rw [update_of_ne (by omega)]
    exact fresh

theorem closeUnless_pipe (readOther : created.1 ≠ fd) (writeOther : created.2 ≠ fd) :
    (shell.pipe created).closeUnless 0 fd = (shell.closeUnless 0 fd).pipe created := by
  by_cases standard : fd ≠ 0
  · simp only [Shell.closeUnless, if_pos standard, Shell.pipe]
    rw [close_update_of_ne writeOther, close_update_of_ne readOther,
      update_of_ne writeOther.symm, update_of_ne readOther.symm]
  · simp only [Shell.closeUnless, if_neg standard]

theorem closeUnless_created (notStandard : created.2 ≠ 1) (different : created.1 ≠ created.2)
    (fresh : shell.table created.2 = none) :
    (shell.pipe created).closeUnless 1 created.2 = { shell with
      pipes := created
      table := update shell.table created.1 (some (.pipeRead shell.i))
      closed := shell.closed ++ [some (.pipeWrite shell.i)] } := by
  simp only [Shell.closeUnless, if_pos notStandard, Shell.pipe, update_self]
  rw [close_update_self]
  rwa [update_of_ne different.symm]

theorem Between.input (between : Between inherited n shell) (indexLt : shell.i < n) :
    (shell.inputFd = 0 ∨ 2 < shell.inputFd) ∧
      redirect shell.table shell.inputFd 0 = inputTable inherited shell.i ∧
      (shell.closeUnless 0 shell.inputFd).table = inheritedTable inherited ∧
      (shell.closeUnless 0 shell.inputFd).closed = pipeEnds shell.i ∧
      ∀ other, 2 < other → shell.table other = none →
        other ≠ shell.inputFd ∧ inheritedTable inherited other = none := by
  cases between with
  | first index input table closed =>
    refine ⟨.inl input, ?_, ?_, ?_, fun other above fresh => ⟨by omega, table ▸ fresh⟩⟩
    · rw [input, redirect_self, table, index, inputTable, if_pos rfl]
    · rw [Shell.closeUnless, if_neg (not_not.mpr input), table]
    · rw [Shell.closeUnless, if_neg (not_not.mpr input), closed, index]
      rfl
  | @middle j index more above fresh table closed =>
    have notStandard : shell.inputFd ≠ 0 := by omega
    refine ⟨.inr above, ?_, ?_, ?_, fun other _ otherFresh => ?_⟩
    · rw [table, redirect_update_self notStandard fresh, index, inputTable,
        if_neg (Nat.succ_ne_zero j)]
      rfl
    · rw [Shell.closeUnless, if_pos notStandard, table]
      exact close_update_self fresh
    · rw [Shell.closeUnless, if_pos notStandard, table, update_self, index]
      exact closed
    · rw [table] at otherFresh
      by_cases same : other = shell.inputFd
      · rw [same, update_self] at otherFresh
        cases otherFresh
      · rw [update_of_ne same] at otherFresh
        exact ⟨same, otherFresh⟩
  | last index => omega

theorem Between.exists_iteration (between : Between inherited n shell)
    (count : shell.numCommands = n) (indexLt : shell.i < n) (pipeFresh : PipeFresh shell stage)
    (few : (tokens ' ' stage.command).length < maxArgs) :
    ∃ next child kept, iteration shell stage = some (next, child) ∧ 2 < kept ∧
      child.table = childTable inherited n shell.i kept ∧ Between inherited n next ∧
      next.numCommands = n ∧ next.i = shell.i + 1 := by
  obtain ⟨standard, input, table, closed, others⟩ := between.input indexLt
  rw [iteration]
  simp only [if_pos few]
  by_cases isLast : shell.i + 1 = n
  · have noPipe : ¬ shell.i < shell.numCommands - 1 := by omega
    have lastIndex : shell.i = shell.numCommands - 1 := by omega
    simp only [if_neg noPipe, if_pos lastIndex, closeUnless_self]
    refine ⟨_, _, 3, rfl, by decide, ?_, .last ?_ table ?_, ?_, ?_⟩
    · rw [executeCommand_table, redirect_self, input, childTable, if_pos isLast]
    · rw [closeUnless_i]
      exact isLast
    · rw [← isLast]
      exact closed
    · rw [closeUnless_numCommands]
      exact count
    · rw [closeUnless_i]
  · have morePipes : shell.i < shell.numCommands - 1 := by omega
    have notLast : ¬ shell.i = shell.numCommands - 1 := by omega
    obtain ⟨readAbove, writeAbove, different, readFresh, writeFresh⟩ := pipeFresh morePipes
    obtain ⟨readOther, readNone⟩ := others _ readAbove readFresh
    obtain ⟨writeOther, writeNone⟩ := others _ writeAbove writeFresh
    simp only [if_pos morePipes, pipe_i, pipe_numCommands, if_neg notLast, pipe_inputFd, pipe_pipes]
    rw [closeUnless_pipe readOther writeOther, closeUnless_created (by omega) different
      (by rw [table]; exact writeNone)]
    refine ⟨_, _, stage.created.1, rfl, readAbove, ?_,
      .middle (j := shell.i) ?_ ?_ readAbove readNone ?_ ?_, ?_, ?_⟩
    · rw [executeCommand_table, Shell.pipe,
      redirect_created readAbove writeAbove different readOther
        writeOther, input, childTable, if_neg isLast]
      rw [input]
      exact inputTable_eq_none writeAbove writeNone
    · simp only [closeUnless_i]
    · omega
    · simp only [closeUnless_i, table]
    · simp only [closeUnless_i, closed, pipeEnds_succ, append_assoc, cons_append, nil_append]
    · simp only [closeUnless_numCommands, count]
    · simp only [closeUnless_i]

theorem Between.exists_run {stages : List Stage} (between : Between inherited n shell)
    (count : shell.numCommands = n) (all : shell.i + stages.length = n)
    (fresh : Respects iteration PipeFresh shell stages)
    (few : ∀ stage ∈ stages, (tokens ' ' stage.command).length < maxArgs) :
    ∃ final children, run iteration shell stages = some (final, children) ∧
      Between inherited n final ∧ final.i = n ∧ children.length = stages.length ∧
      ∀ k child, children[k]? = some child →
        ∃ kept, 2 < kept ∧ child.table = childTable inherited n (shell.i + k) kept := by
  induction stages generalizing shell with
  | nil => exact ⟨shell, [], rfl, between, all, rfl, fun _ _ found => by simp at found⟩
  | cons stage stages ih =>
    rw [length_cons] at all
    obtain ⟨fewArgs, restFew⟩ := forall_mem_cons.mp few
    obtain ⟨next, child, kept, iterated, above, table, nextBetween, nextCount, nextIndex⟩ :=
      between.exists_iteration count (by omega) fresh.1 fewArgs
    obtain ⟨final, children, ran, finalBetween, finalIndex, length, tables⟩ :=
      ih nextBetween nextCount (by omega) (fresh.2 next child iterated) restFew
    refine ⟨final, child :: children, run_cons_eq_some.mpr ⟨next, child, children, iterated, ran,
      rfl⟩, finalBetween, finalIndex, by simp [length], fun k other found => ?_⟩
    cases k with
    | zero =>
      cases found
      exact ⟨kept, above, table⟩
    | succ k =>
      obtain ⟨otherKept, otherAbove, otherTable⟩ := tables k other (by simpa using found)
      rw [nextIndex, Nat.add_right_comm, Nat.add_assoc] at otherTable
      exact ⟨otherKept, otherAbove, otherTable⟩

theorem few_args_of_run {stages : List Stage} {final : Shell}
    (ran : run iteration shell stages = some (final, children)) :
    ∀ stage ∈ stages, (tokens ' ' stage.command).length < maxArgs := by
  induction stages generalizing shell children with
  | nil => exact fun _ member => absurd member not_mem_nil
  | cons stage stages ih =>
    obtain ⟨next, child, rest, iterated, restRun, rfl⟩ := run_cons_eq_some.mp ran
    rw [iteration, ite_none_right_eq_some] at iterated
    exact forall_mem_cons.mpr ⟨iterated.1, ih restRun⟩

theorem Between.of_last (between : Between inherited n shell) (index : shell.i = n)
    (positive : 0 < n) :
    shell.table = inheritedTable inherited ∧ shell.closed = pipeEnds (n - 1) := by
  cases between with
  | first isFirst => omega
  | middle isMiddle => omega
  | last _ table closed => exact ⟨table, closed⟩

theorem commands_stages (line : List Char) (created : Nat → Int × Int) :
    (stages line created).map Stage.command = tokens '|' line := by
  refine ext_getElem (by simp [stages]) fun i _ _ => ?_
  simp [stages]

theorem wired_childTable {child : Child} (above : 2 < kept)
    (table : child.table = childTable inherited n i kept) : Wired inherited n i child := by
  have input : inputTable inherited i 0 =
      if i = 0 then inheritedTable inherited 0 else some (.pipeRead (i - 1)) := by
    rw [inputTable]
    split
    · rfl
    · exact update_self _ _ _
  have output : inputTable inherited i 1 = inheritedTable inherited 1 := by
    rw [inputTable]
    split
    · rfl
    · exact update_of_ne (by decide) _ _
  rw [childTable] at table
  by_cases isLast : i + 1 = n
  · rw [if_pos isLast] at table
    exact ⟨by rw [table, input], by rw [table, output, if_pos isLast]⟩
  · rw [if_neg isLast] at table
    refine ⟨?_, by rw [table, update_self, if_neg isLast]⟩
    rw [table, update_of_ne (by decide), update_of_ne (by omega), input]

theorem inheritedTable_ne_pipeRead : inheritedTable inherited fd ≠ some (.pipeRead j) := by
  intro found
  obtain ⟨file, -, isRead⟩ := map_eq_some_iff.mp found
  cases isRead

theorem inputTable_eq_pipeRead :
    inputTable inherited i fd = some (.pipeRead j) ↔ fd = 0 ∧ j + 1 = i := by
  rw [inputTable]
  split
  · rename_i isFirst
    exact iff_of_false inheritedTable_ne_pipeRead (by omega)
  · by_cases isInput : fd = 0
    · rw [isInput, update_self, some.injEq, OpenFile.pipeRead.injEq]
      omega
    · rw [update_of_ne isInput]
      exact iff_of_false inheritedTable_ne_pipeRead fun both => isInput both.1

theorem holds_childTable (above : 2 < kept) :
    Holds (childTable inherited n i kept) (.pipeRead j) ↔ j + 1 = i ∨ j = i ∧ i + 1 ≠ n := by
  rw [childTable]
  by_cases isLast : i + 1 = n
  · simp [Holds, isLast, inputTable_eq_pipeRead]
  · rw [if_neg isLast]
    constructor
    · rintro ⟨fd, found⟩
      by_cases isOutput : fd = 1
      · rw [isOutput, update_self] at found
        cases found
      · rw [update_of_ne isOutput] at found
        by_cases isKept : fd = kept
        · rw [isKept, update_self] at found
          cases found
          exact .inr ⟨rfl, isLast⟩
        · rw [update_of_ne isKept] at found
          exact .inl (inputTable_eq_pipeRead.mp found).2
    · rintro (isInput | ⟨rfl, -⟩)
      · refine ⟨0, ?_⟩
        rw [update_of_ne (by decide), update_of_ne (by omega)]
        exact inputTable_eq_pipeRead.mpr ⟨rfl, isInput⟩
      · refine ⟨kept, ?_⟩
        rw [update_of_ne (by omega), update_self]

end

section

variable {inherited : Table Nat} {pipes : Int × Int} {line : List Char} {created : Nat → Int × Int}

/-- The tokens of the line fit into the arrays. -/
def Fits (line : List Char) : Prop :=
  (tokens '|' line).length < maxArgs ∧
    ∀ command ∈ tokens '|' line, (tokens ' ' command).length < maxArgs

theorem fits_iff (created : Nat → Int × Int) : Fits line ↔ (tokens '|' line).length < maxArgs ∧
      ∀ stage ∈ stages line created, (tokens ' ' stage.command).length < maxArgs := by
  rw [Fits, ← commands_stages line created, List.forall_mem_map]

theorem fits_of_runLine {shell : Shell}
    (ran : runLine inherited pipes line created = some (shell, children)) : Fits line := by
  rw [runLine, ite_none_right_eq_some] at ran
  exact (fits_iff created).mpr ⟨ran.1, few_args_of_run ran.2⟩

theorem exists_runLine (positive : 1 ≤ (tokens '|' line).length)
    (fresh : Respects iteration PipeFresh (start inherited pipes (tokens '|' line).length)
      (stages line created)) (fits : Fits line) :
    ∃ shell children, runLine inherited pipes line created = some (shell, children) ∧
      shell.table = inheritedTable inherited ∧
      shell.closed = pipeEnds ((tokens '|' line).length - 1) ∧
      children.length = (tokens '|' line).length ∧
      ∀ i child, children[i]? = some child → ∃ kept, 2 < kept ∧
        child.table = childTable inherited (tokens '|' line).length i kept := by
  obtain ⟨fewCommands, fewArgs⟩ := (fits_iff created).mp fits
  have first : Between inherited (tokens '|' line).length
      (start inherited pipes (tokens '|' line).length) := .first rfl rfl rfl rfl
  obtain ⟨shell, children, ran, between, index, length, tables⟩ :=
    first.exists_run rfl (by simp [start, stages]) fresh fewArgs
  obtain ⟨table, closed⟩ := between.of_last index positive
  refine ⟨shell, children, by rw [runLine, if_pos fewCommands, ran], table, closed,
    by simp [length, stages], fun i child found => ?_⟩
  obtain ⟨kept, above, childEq⟩ := tables i child found
  rw [start, Nat.zero_add] at childEq
  exact ⟨kept, above, childEq⟩

end

/-- The commands are connected exactly if the line fits into `commands` and `args`. -/
theorem pipeline_plumbed_iff_fits (inherited : Table Nat) (pipes : Int × Int) (line : List Char)
    (created : Nat → Int × Int) (positive : 1 ≤ (tokens '|' line).length)
    (fresh : Respects iteration PipeFresh (start inherited pipes (tokens '|' line).length)
      (stages line created)) :
    (∃ shell children, runLine inherited pipes line created = some (shell, children) ∧
      Plumbed inherited (tokens '|' line).length shell children) ↔ Fits line := by
  constructor
  · rintro ⟨shell, children, ran, -⟩
    exact fits_of_runLine ran
  · intro fits
    obtain ⟨shell, children, ran, table, closed, length, tables⟩ :=
      exists_runLine positive fresh fits
    refine ⟨shell, children, ran, length, fun i child found => ?_, closed, table⟩
    obtain ⟨kept, above, childEq⟩ := tables i child found
    exact wired_childTable above childEq

def terminal : Table Nat :=
  fun fd => if 0 ≤ fd ∧ fd ≤ 2 then some fd.toNat else none

theorem two_commands_plumbed :
    ∃ shell children, runLine terminal (0, 0) ['a', '|', 'b'] (fun _ => (3, 4)) =
        some (shell, children) ∧ Plumbed terminal 2 shell children := by
  refine (pipeline_plumbed_iff_fits terminal (0, 0) ['a', '|', 'b'] (fun _ => (3, 4)) (by decide)
    (.cons ?_ rfl (.cons ?_ rfl trivial))).mpr ⟨by decide, by decide⟩
  · exact fun _ => by decide
  · exact fun more => absurd more (by decide)

theorem commands_overflow : (tokens '|' ('a' :: (replicate 63 ['|', 'a']).flatten)).length = 64 ∧
      ∀ inherited pipes created,
        runLine inherited pipes ('a' :: (replicate 63 ['|', 'a']).flatten) created = none := by
  have length : (tokens '|' ('a' :: (replicate 63 ['|', 'a']).flatten)).length = 64 := by
    decide
  refine ⟨length, fun inherited pipes created => ?_⟩
  rfl

/-- A read end of a pipe is open only in the child that reads it. -/
def OnlyConsumerHolds (shell : Shell) (children : List Child) (exited : Nat → Prop) : Prop :=
  ∀ i, i + 1 < children.length → ¬ Holds shell.table (.pipeRead i) ∧
    ∀ j child, children[j]? = some child → ¬ exited j → Holds child.table (.pipeRead i) → j = i + 1

/-- Read ends are held by their consumer only, exactly if the other children have exited. -/
theorem only_consumer_holds_iff_exited (inherited : Table Nat) (pipes : Int × Int)
    (line : List Char) (created : Nat → Int × Int) (several : 2 ≤ (tokens '|' line).length)
    (fresh : Respects iteration PipeFresh (start inherited pipes (tokens '|' line).length)
      (stages line created)) (shell : Shell) (children : List Child)
    (ran : runLine inherited pipes line created = some (shell, children))
    (exited : Nat → Prop) :
    OnlyConsumerHolds shell children exited ↔ ∀ j, j + 1 < (tokens '|' line).length → exited j := by
  obtain ⟨_, _, ranToo, table, -, length, tables⟩ :=
    exists_runLine (Nat.le_of_succ_le several) fresh (fits_of_runLine ran)
  obtain ⟨rfl, rfl⟩ := Prod.mk.inj (some.inj (ran.symm.trans ranToo))
  rw [OnlyConsumerHolds, length]
  constructor
  · intro only j more
    by_contra alive
    obtain ⟨child, found⟩ : ∃ child, children[j]? = some child :=
      ⟨_, getElem?_eq_getElem (by omega)⟩
    obtain ⟨kept, above, childEq⟩ := tables j child found
    have keeps : Holds child.table (.pipeRead j) := by
      rw [childEq, holds_childTable above]
      exact .inr ⟨rfl, Nat.ne_of_lt more⟩
    have consumer := (only j more).2 j child found alive keeps
    omega
  · intro allExited i _
    refine ⟨fun ⟨fd, found⟩ => inheritedTable_ne_pipeRead (table ▸ found), ?_⟩
    intro j child found alive holds
    obtain ⟨kept, above, childEq⟩ := tables j child found
    rw [childEq, holds_childTable above] at holds
    rcases holds with consumer | ⟨rfl, notLast⟩
    · exact consumer.symm
    · exact absurd (allExited i (by omega)) alive

theorem only_consumer_holds_after_exit :
    ∃ shell children, runLine terminal (0, 0) ['a', '|', 'b'] (fun _ => (3, 4)) =
        some (shell, children) ∧ OnlyConsumerHolds shell children (· = 0) := by
  obtain ⟨shell, children, ran⟩ : ∃ shell children, runLine terminal (0, 0) ['a', '|', 'b']
      (fun _ => (3, 4)) = some (shell, children) := ⟨_, _, rfl⟩
  refine ⟨shell, children, ran, (only_consumer_holds_iff_exited terminal (0, 0) ['a', '|', 'b']
    (fun _ => (3, 4)) (by decide) (.cons ?_ rfl (.cons ?_ rfl trivial)) shell children ran
    (· = 0)).mpr ?_⟩
  · exact fun _ => by decide
  · exact fun more => absurd more (by decide)
  · intro j more
    have two : (tokens '|' ['a', '|', 'b']).length = 2 := by decide
    omega

theorem producer_holds_read_end :
    ∃ shell children child, runLine terminal (0, 0) ['a', '|', 'b'] (fun _ => (3, 4)) =
        some (shell, children) ∧ children[0]? = some child ∧
      child.table 3 = some (.pipeRead 0) ∧ ¬ OnlyConsumerHolds shell children fun _ => False := by
  refine ⟨_, _, _, rfl, rfl, rfl, fun only => ?_⟩
  have consumer := (only 0 (by decide)).2 0 _ rfl not_false ⟨3, rfl⟩
  exact absurd consumer (by decide)

end ShellPipeline

end BitsAndBytes
