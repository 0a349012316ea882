import Mathlib.Data.List.Nodup
import WazAISentinel.Foundations.RowTable
import WazAISentinel.Foundations.TransitionSystem

/-!
# A channel of the stream log

`streamlog/src/channel.cpp`: the worker of a channel, which rotates its file and writes the
messages, and the compression of rotated files, which the scheduler runs later. A file holds the
numbers of the messages that have been written to it, in the order of writing, and its size. The
clock, the local time, the outcome of opening a file and whether the scheduler still exists are
arguments. The output stream stays open when its file is removed, and what is written to it then is
in no file; so the state has the path at which the open file is (`outputFile`), if there is one.

The name of a file depends on the time and on a counter, which a rotation by time sets back to zero.
So a rotation can come to a path that has been used: its compressed file would be replaced later, or
the compression that is pending for it would remove the file while it is written to. `Safe` says
that this is not so. If all rotations lead to safe paths, or to the current file again, each message
that has been written is at exactly one path, whenever the tasks run.
-/

namespace WazAISentinel.Streamlog

open Foundations

abbrev Path : Type := List Char

/-- The fields of `std::tm` that a pattern can name. -/
structure Tm where
  tmYear : Nat
  tmMon : Nat
  tmMday : Nat
  tmHour : Nat

structure RotationConfig where
  basePath : Path
  pattern : List Char
  maxSize : Nat
  shouldCompress : Bool

/-- What a channel keeps as it is, and the local time of its host. -/
structure ChannelHandler where
  config : RotationConfig
  channelName : List Char
  localtime : Nat → Option Tm

/-! ## Paths -/

/-- The loop of `replaceAll`. -/
def replaceAllLoop (needle replacement : List Char) : Nat → List Char → List Char
  | 0, text => text
  | _ + 1, [] => []
  | fuel + 1, c :: rest =>
    if needle.isPrefixOf (c :: rest) then
      replacement ++ replaceAllLoop needle replacement fuel ((c :: rest).drop needle.length)
    else c :: replaceAllLoop needle replacement fuel rest

/-- `std::regex_replace` with a text that is taken literally. -/
def replaceAll (needle replacement text : List Char) : List Char :=
  replaceAllLoop needle replacement text.length text

/-- `${text}`. -/
def placeholder (text : List Char) : List Char := '$' :: '\x7b' :: (text ++ ['\x7d'])

def decimal (n : Nat) : List Char := Nat.toDigits 10 n

def twoDigits (n : Nat) : List Char := (if n < 10 then ['0'] else []) ++ decimal n

def months : List (List Char) :=
  [['J', 'a', 'n'], ['F', 'e', 'b'], ['M', 'a', 'r'], ['A', 'p', 'r'], ['M', 'a', 'y'],
    ['J', 'u', 'n'], ['J', 'u', 'l'],
    ['A', 'u', 'g'], ['S', 'e', 'p'], ['O', 'c', 't'], ['N', 'o', 'v'], ['D', 'e', 'c']]

section

variable (h : ChannelHandler)

/-- The name of a file at a time and a counter; none if there is no local time. -/
def replacePlaceholders (counter timePoint : Nat) : Option (List Char) :=
  (h.localtime timePoint).map fun tm =>
    let result := h.config.pattern
    let result := replaceAll (placeholder ['Y', 'Y', 'Y', 'Y']) (decimal (tm.tmYear + 1900)) result
    let result := replaceAll (placeholder ['Y', 'Y']) (decimal ((tm.tmYear + 1900) % 100)) result
    let result := replaceAll (placeholder ['M', 'M']) (twoDigits (tm.tmMon + 1)) result
    let result := replaceAll (placeholder ['D', 'D']) (twoDigits tm.tmMday) result
    let result := replaceAll (placeholder ['H', 'H']) (twoDigits tm.tmHour) result
    let result :=
      match months[tm.tmMon]? with
      | some month => replaceAll (placeholder ['M', 'M', 'M']) month result
      | none => result
    let result := replaceAll (placeholder ['n', 'a', 'm', 'e']) h.channelName result
    if h.config.maxSize > 0 then replaceAll (placeholder ['c', 'o', 'u', 'n', 't', 'e', 'r'])
      (decimal counter) result else result

/-- `basePath / path`. -/
def joinPath (basePath : Path) : Path → Path
  | '/' :: rest => '/' :: rest
  | path => if basePath.getLast? = some '/' then basePath ++ path else basePath ++ '/' :: path

def gz (path : Path) : Path := path ++ ['.', 'g', 'z']

/-- `path.filename()`. -/
def filename (path : Path) : List Char := (path.reverse.takeWhile fun c => c ≠ '/').reverse

/-! ## The state -/

/-- A file: its size and the numbers of the messages in it. -/
structure LogFile where
  size : Nat
  messages : List Nat
  deriving DecidableEq

/-- The files that exist. -/
abbrev Files : Type := AssocMap Path LogFile

structure State where
  currentFile : Path
  outputFile : Option Path
  lastRotation : Nat
  lastRotationCheck : Nat
  currentSize : Nat
  counter : Nat
  running : Bool
  files : Files
  /-- The files whose compression is scheduled. -/
  tasks : List Path
  /-- How many messages have been written. -/
  written : Nat

inductive RotationRequirement where
  | no
  | size
  | time
  deriving DecidableEq

/-- How opening the output file and linking it ends. -/
inductive Opening where
  | opened
  | openFails
  | linkFails
  deriving DecidableEq

/-! ## The worker -/

variable (s : State)

/-- The check stores the time; if it throws, the channel is closed. The candidate is compared
without the base path. -/
def needsRotation (messageSize now : Nat) : State × RotationRequirement :=
  let s := { s with lastRotationCheck := now }
  if h.config.maxSize > 0 ∧ s.currentSize + messageSize ≥ h.config.maxSize then (s, .size)
  else if now / 3600 ≠ s.lastRotation / 3600 then
    match replacePlaceholders h s.counter now with
    | none => ({ s with running := false }, .no)
    | some candidatePath => (s, if s.currentFile ≠ candidatePath then .time else .no)
  else (s, .no)

/-- The file is opened to append, and created if it does not exist. -/
def updateOutputFileAndLink (opening : Opening) : State :=
  let file := (s.files.get s.currentFile).getD ⟨0, []⟩
  match opening with
  | .openFails => { s with outputFile := none, running := false }
  | .linkFails =>
    { s with outputFile := none, running := false, files := s.files.set s.currentFile file,
             currentSize := file.size }
  | .opened =>
    { s with outputFile := some s.currentFile, files := s.files.set s.currentFile file,
             currentSize := file.size }

/-- The scheduler throws if there is a task of the name. The exception leaves the function of the
thread and ends the process. -/
def scheduleCompression (previousFile : Path) : State :=
  if s.tasks.any fun task => filename task = filename previousFile then { s with running := false }
  else { s with tasks := s.tasks ++ [previousFile] }

def rotatedCounter (counter : Nat) : RotationRequirement → Nat
  | .size => counter + 1
  | .time => 0
  | .no => 0

def rotateFile (rotationType : RotationRequirement) (opening : Opening) (scheduler : Bool) :
    State :=
  let s := { s with counter := rotatedCounter s.counter rotationType }
  let previousFile := s.currentFile
  match replacePlaceholders h s.counter s.lastRotationCheck with
  | none => { s with running := false }
  | some name =>
    let s :=
      { s with currentFile := joinPath h.config.basePath name, lastRotation := s.lastRotationCheck }
    let s := updateOutputFileAndLink s opening
    if opening = .opened ∧ previousFile ≠ s.currentFile ∧ h.config.shouldCompress = true ∧
      scheduler = true then
      scheduleCompression s previousFile
    else s

def LogFile.append (file : LogFile) (message messageSize : Nat) : LogFile :=
  ⟨file.size + messageSize + 1, file.messages ++ [message]⟩

/-- The message is written, or lost if there is no file. A write that fails is left out. -/
def writeMessage (messageSize : Nat) : State :=
  { s with
    currentSize := s.currentSize + messageSize + 1
    written := s.written + 1
    files :=
      match s.outputFile with
      | none => s.files
      | some path =>
        s.files.set path (((s.files.get path).getD ⟨0, []⟩).append s.written messageSize) }

/-- A round of the worker: a message that is not empty is written, behind a rotation if it needs
one. -/
def workerRound (messageSize now : Nat) (opening : Opening) (scheduler : Bool) : State :=
  if s.running = false ∨ messageSize = 0 then s
  else
    let (s, rType) := needsRotation h s messageSize now
    let s := if rType ≠ .no then rotateFile h s rType opening scheduler else s
    if s.running then writeMessage s messageSize else s

/-! ## Compression -/

/-- The content is moved to the compressed file, and the file is removed. Without the file nothing
is done. -/
def compressLogFile (path : Path) : State :=
  match s.files.get path with
  | none => s
  | some file =>
    { s with
      files := (s.files.set (gz path) file).erase path
      outputFile := if s.outputFile = some path then none else s.outputFile }

/-- A task is run once. -/
def runTask (path : Path) : State := { compressLogFile s path with tasks := s.tasks.erase path }

/-! ## Runs -/

inductive Event where
  | message (messageSize now : Nat) (opening : Opening) (scheduler : Bool)
  | task (path : Path)

/-- The worker takes a message, or the scheduler runs a task. -/
def step : Event → Option State
  | .message messageSize now opening scheduler =>
    some (workerRound h s messageSize now opening scheduler)
  | .task path => if s.tasks.contains path then some (runTask s path) else none

end

/-- The channel and its scheduler. -/
def system (h : ChannelHandler) (init : State) : TransitionSystem State Event := ⟨init, step h⟩

/-! ## When rotation keeps the messages -/

open List

theorem gz_ne_self (path : Path) : gz path ≠ path := by
  intro h
  have hlength := congrArg length h
  rw [gz, length_append] at hlength
  exact absurd hlength (Nat.ne_of_gt (Nat.lt_add_of_pos_right (by decide)))

variable {q path : Path} {files : Files} {i : Nat} {file : LogFile}

/-- The messages at a path. -/
def messagesIn (files : Files) (path : Path) : List Nat :=
  ((files.get path).map LogFile.messages).getD []

theorem exists_of_mem_messagesIn (hi : i ∈ messagesIn files path) :
    ∃ entry ∈ files.entries, i ∈ entry.2.messages := by
  rw [messagesIn] at hi
  cases hfile : files.get path with
  | none =>
    rw [hfile] at hi
    cases hi
  | some file =>
    rw [hfile] at hi
    exact ⟨_, AssocMap.mem_of_get hfile, hi⟩

theorem messagesIn_eq : messagesIn files path = ((files.get path).getD ⟨0, []⟩).messages := by
  rw [messagesIn]
  cases files.get path with
  | none | some file => rfl

/-- Opening a file changes no messages. -/
theorem messagesIn_open (files : Files) (path q : Path) :
    messagesIn (files.set path ((files.get path).getD ⟨0, []⟩)) q = messagesIn files q := by
  rw [messagesIn_eq, messagesIn_eq, AssocMap.get_set]
  by_cases hq : q = path
  · rw [if_pos hq, Option.getD_some, hq]
  · rw [if_neg hq]

/-- The messages of a file are moved with it. -/
theorem mem_messagesIn_move (hfile : files.get path = some file)
    (htarget : messagesIn files (gz path) = []) :
    i ∈ messagesIn ((files.set (gz path) file).erase path) q ↔
      q ≠ path ∧ (i ∈ messagesIn files q ∨ q = gz path ∧ i ∈ messagesIn files path) := by
  rw [messagesIn, AssocMap.get_erase, AssocMap.get_set]
  by_cases hq : q = path
  · rw [if_pos hq]
    exact iff_of_false not_mem_nil fun h => h.1 hq
  · rw [if_neg hq]
    by_cases hgz : q = gz path
    · rw [if_pos hgz, hgz, htarget, messagesIn, hfile]
      exact ⟨fun h => ⟨gz_ne_self path, .inr ⟨rfl, h⟩⟩,
        fun h => h.2.elim (fun h => absurd h not_mem_nil) fun h => h.2⟩
    · rw [if_neg hgz]
      exact ⟨fun h => ⟨hq, .inl h⟩, fun h => h.2.elim id fun h => absurd h.1 hgz⟩

/-- A message that is written is behind those of its file. -/
theorem mem_messagesIn_append {message size : Nat} :
    i ∈ messagesIn (files.set path (((files.get path).getD ⟨0, []⟩).append message size)) q ↔
      i ∈ messagesIn files q ∨ q = path ∧ i = message := by
  rw [messagesIn_eq, messagesIn_eq, AssocMap.get_set]
  by_cases hq : q = path
  · subst hq
    rw [if_pos rfl, Option.getD_some, and_iff_right rfl, ← mem_singleton, ← mem_append]
    rfl
  · rw [if_neg hq]
    exact (or_iff_left fun h => hq h.1).symm

namespace State

/-- The files that are open or will be compressed. -/
def live (s : State) : List Path := s.outputFile.toList ++ s.tasks

/-- Each message that has been written is at exactly one path. -/
def Kept (s : State) : Prop := ∀ i < s.written, ∃! path, i ∈ messagesIn s.files path

/-- A path to which the channel can rotate: neither open nor to be compressed, and with no messages
where it would be compressed to. -/
def Safe (s : State) (path : Path) : Prop :=
  messagesIn s.files (gz path) = [] ∧ ∀ p ∈ s.live, path ≠ p ∧ gz p ≠ path ∧ gz path ≠ p

instance (s : State) (path : Path) : Decidable (s.Safe path) := inferInstanceAs (Decidable (_ ∧ _))

structure Invariant (s : State) : Prop where
  attached : s.running = true → s.outputFile = some s.currentFile
  nodup : s.live.Nodup
  target : ∀ path ∈ s.live, messagesIn s.files (gz path) = []
  apart : ∀ p ∈ s.live, ∀ q ∈ s.live, gz p ≠ q
  kept : s.Kept
  bound : ∀ path, ∀ i ∈ messagesIn s.files path, i < s.written

/-- A state of a channel that has just been opened: its file is there, and there are no messages
yet. Compressions may be pending for other files. -/
structure Opened (s : State) : Prop where
  attached : s.outputFile = some s.currentFile
  nodup : s.live.Nodup
  apart : ∀ p ∈ s.live, ∀ q ∈ s.live, gz p ≠ q
  written : s.written = 0
  empty : ∀ path, messagesIn s.files path = []

theorem Opened.invariant {s : State} (h : s.Opened) : s.Invariant where
  attached _ := h.attached
  nodup := h.nodup
  target path _ := h.empty (gz path)
  apart := h.apart
  kept i hi := by
    rw [h.written] at hi
    exact absurd hi (Nat.not_lt_zero i)
  bound path i hi := by
    rw [h.empty path] at hi
    exact absurd hi not_mem_nil

variable {s t : State}

theorem tasks_sublist_live (s : State) : s.tasks.Sublist s.live := sublist_append_right _ _

section

variable (h : s.Invariant)

include h

/-- Steps that move no messages: the invariant is about the files that are open or will be
compressed. -/
theorem Invariant.of_messages
    (hmessages : ∀ path, messagesIn t.files path = messagesIn s.files path)
    (hwritten : t.written = s.written)
    (hattached : t.running = true → t.outputFile = some t.currentFile) (hnodup : t.live.Nodup)
    (htarget : ∀ path ∈ t.live, messagesIn s.files (gz path) = [])
    (hapart : ∀ p ∈ t.live, ∀ q ∈ t.live, gz p ≠ q) :
    t.Invariant where
  attached := hattached
  nodup := hnodup
  target path hpath := by
    rw [hmessages]
    exact htarget path hpath
  apart := hapart
  kept := by
    rw [Kept, hwritten, show messagesIn t.files = messagesIn s.files from funext hmessages]
    exact h.kept
  bound path i hi := by
    rw [hmessages] at hi
    rw [hwritten]
    exact h.bound path i hi

/-- Some files are no longer open or pending. -/
theorem Invariant.of_sublist (hlive : t.live.Sublist s.live)
    (hmessages : ∀ path, messagesIn t.files path = messagesIn s.files path)
    (hwritten : t.written = s.written)
    (hattached : t.running = true → t.outputFile = some t.currentFile) : t.Invariant :=
  h.of_messages hmessages hwritten hattached (h.nodup.sublist hlive)
    (fun path hpath => h.target path (hlive.subset hpath))
    (fun p hp q hq => h.apart p (hlive.subset hp) q (hlive.subset hq))

/-! ## Tasks -/

theorem Invariant.outputFile_ne (hpath : path ∈ s.tasks) : s.outputFile ≠ some path := by
  intro heq
  have hnodup := h.nodup
  rw [live, heq] at hnodup
  exact (nodup_cons.1 hnodup).1 hpath

theorem Invariant.runTask (hpath : path ∈ s.tasks) : (runTask s path).Invariant := by
  rw [Streamlog.runTask, compressLogFile]
  have hlive : path ∈ s.live := mem_append_right _ hpath
  have hother := h.outputFile_ne hpath
  have hsublist : (s.outputFile.toList ++ s.tasks.erase path).Sublist s.live :=
    Sublist.append (Sublist.refl _) erase_sublist
  cases hfile : s.files.get path with
  | none => exact h.of_sublist hsublist (fun _ => rfl) rfl h.attached
  | some file =>
    have hmem : ∀ {i : Nat} {q : Path},
        i ∈ messagesIn ((s.files.set (gz path) file).erase path) q ↔
          q ≠ path ∧ (i ∈ messagesIn s.files q ∨ q = gz path ∧ i ∈ messagesIn s.files path) :=
      mem_messagesIn_move hfile (h.target path hlive)
    -- the other files that are open or pending are not touched
    have hne : ∀ q ∈ s.outputFile.toList ++ s.tasks.erase path, q ≠ path := by
      rintro q hq rfl
      rcases mem_append.1 hq with hq | hq
      · exact hother (Option.mem_toList.1 hq)
      · exact (nodup_append.1 h.nodup).2.1.not_mem_erase hq
    rw [if_neg hother]
    refine ⟨h.attached, h.nodup.sublist hsublist, ?_, ?_, ?_, ?_⟩
    · intro q hq
      apply eq_nil_iff_forall_not_mem.2
      intro i hi
      rcases (hmem.1 hi).2 with hi | ⟨heq, -⟩
      · rw [h.target q (hsublist.subset hq)] at hi
        exact absurd hi not_mem_nil
      · exact hne q hq (append_cancel_right heq)
    · intro p hp q hq
      exact h.apart p (hsublist.subset hp) q (hsublist.subset hq)
    · intro i hi
      obtain ⟨q, hq, hunique⟩ := h.kept i hi
      by_cases heq : q = path
      · subst heq
        refine ⟨gz q, hmem.2 ⟨gz_ne_self q, .inr ⟨rfl, hq⟩⟩, fun r hr => ?_⟩
        obtain ⟨hrq, hr | ⟨heq, -⟩⟩ := hmem.1 hr
        · exact absurd (hunique r hr) hrq
        · exact heq
      · refine ⟨q, hmem.2 ⟨heq, .inl hq⟩, fun r hr => ?_⟩
        obtain ⟨-, hr | ⟨-, hi⟩⟩ := hmem.1 hr
        · exact hunique r hr
        · exact absurd (hunique path hi).symm heq
    · intro q i hi
      rcases (hmem.1 hi).2 with hi | ⟨-, hi⟩
      · exact h.bound q i hi
      · exact h.bound path i hi

/-! ## Messages -/

theorem Invariant.mem_live (hrunning : s.running = true) : s.currentFile ∈ s.live := by
  rw [live, h.attached hrunning]
  exact mem_cons_self

theorem Invariant.writeMessage (hrunning : s.running = true) (messageSize : Nat) :
    (writeMessage s messageSize).Invariant := by
  have hmem :
      ∀ {i : Nat} {q : Path}, i ∈ messagesIn (Streamlog.writeMessage s messageSize).files q ↔
      i ∈ messagesIn s.files q ∨ q = s.currentFile ∧ i = s.written := by
    rw [Streamlog.writeMessage, h.attached hrunning]
    exact mem_messagesIn_append
  refine ⟨h.attached, h.nodup, ?_, h.apart, ?_, ?_⟩
  · intro path hpath
    apply eq_nil_iff_forall_not_mem.2
    intro i hi
    rcases hmem.1 hi with hi | ⟨heq, -⟩
    · rw [h.target path hpath] at hi
      exact absurd hi not_mem_nil
    · exact h.apart path hpath s.currentFile (h.mem_live hrunning) heq
  · intro i hi
    rcases Nat.lt_succ_iff_lt_or_eq.1 hi with hi | rfl
    · obtain ⟨path, hpath, hunique⟩ := h.kept i hi
      refine ⟨path, hmem.2 (.inl hpath), fun q hq => ?_⟩
      rcases hmem.1 hq with hq | ⟨-, heq⟩
      · exact hunique q hq
      · exact absurd heq (Nat.ne_of_lt hi)
    · refine ⟨s.currentFile, hmem.2 (.inr ⟨rfl, rfl⟩), fun q hq => ?_⟩
      rcases hmem.1 hq with hq | ⟨heq, -⟩
      · exact absurd (h.bound q _ hq) (Nat.lt_irrefl _)
      · exact heq
  · intro path i hi
    rcases hmem.1 hi with hi | ⟨-, rfl⟩
    · exact Nat.lt_succ_of_lt (h.bound path i hi)
    · exact Nat.lt_succ_self _

/-! ## Rotation -/

/-- The channel goes on with a safe path, and some of the files that were open or pending are
pending. -/
theorem Invariant.move (hsafe : s.Safe path) (houtput : t.outputFile = some path)
    (hcurrent : t.currentFile = path)
    (hfiles : t.files = s.files.set path ((s.files.get path).getD ⟨0, []⟩))
    (hwritten : t.written = s.written) (htasks : ∀ task ∈ t.tasks, task ∈ s.live)
    (hnodup : t.tasks.Nodup) : t.Invariant := by
  have hlive : t.live = path :: t.tasks := by
    rw [live, houtput]
    rfl
  obtain ⟨htarget, hapart⟩ := hsafe
  refine h.of_messages ?_ hwritten ?_ ?_ ?_ ?_
  · intro q
    rw [hfiles]
    exact messagesIn_open s.files path q
  · intro _
    rw [houtput, hcurrent]
  · rw [hlive]
    exact nodup_cons.2 ⟨fun hmem => (hapart path (htasks path hmem)).1 rfl, hnodup⟩
  · rw [hlive]
    refine forall_mem_cons.2 ⟨htarget, fun q hq => h.target q (htasks q hq)⟩
  · rw [hlive]
    intro p hp q hq
    rcases mem_cons.1 hp with rfl | hptask
    · rcases mem_cons.1 hq with rfl | hqtask
      · exact gz_ne_self q
      · exact (hapart q (htasks q hqtask)).2.2
    · rcases mem_cons.1 hq with rfl | hqtask
      · exact (hapart p (htasks p hptask)).2.1
      · exact h.apart p (htasks p hptask) q (htasks q hqtask)

theorem Invariant.nodup_tasks : s.tasks.Nodup := (nodup_append.1 h.nodup).2.1

/-- The tasks behind a rotation are those before it and perhaps the file that was open. -/
theorem Invariant.scheduled (hrunning : s.running = true) :
    (∀ task ∈ s.tasks ++ [s.currentFile], task ∈ s.live) ∧ (s.tasks ++ [s.currentFile]).Nodup := by
  constructor
  · exact forall_mem_append.2
      ⟨(tasks_sublist_live s).subset, forall_mem_singleton.2 (h.mem_live hrunning)⟩
  · apply nodup_append.2
    refine ⟨h.nodup_tasks, nodup_singleton _, ?_⟩
    rintro task htask q hq rfl
    rw [mem_singleton.1 hq] at htask
    exact h.outputFile_ne htask (h.attached hrunning)

end

theorem Invariant.rotateFile (hs : s.Invariant) (hrunning : s.running = true) (h : ChannelHandler)
    (rotationType : RotationRequirement) (opening : Opening) (scheduler : Bool) (hsafe : ∀ name,
    replacePlaceholders h (rotatedCounter s.counter rotationType) s.lastRotationCheck = some name →
    joinPath h.config.basePath name = s.currentFile ∨ s.Safe (joinPath h.config.basePath name)) :
    (rotateFile h s rotationType opening scheduler).Invariant := by
  rw [Streamlog.rotateFile]
  cases hname :
    replacePlaceholders h (rotatedCounter s.counter rotationType) s.lastRotationCheck with
  | none =>
    exact hs.of_sublist (Sublist.refl _) (fun _ => rfl) rfl (fun hrun => Bool.noConfusion hrun)
  | some name =>
    dsimp only
    have htarget := hsafe name hname
    cases opening with
    | openFails =>
      rw [if_neg fun hcond => Opening.noConfusion hcond.1]
      exact hs.of_sublist (tasks_sublist_live s) (fun _ => rfl) rfl
        (fun hrun => Bool.noConfusion hrun)
    | linkFails =>
      rw [if_neg fun hcond => Opening.noConfusion hcond.1]
      exact hs.of_sublist (tasks_sublist_live s) (messagesIn_open s.files _) rfl
        (fun hrun => Bool.noConfusion hrun)
    | opened =>
      rcases htarget with hsame | hsafe
      · rw [if_neg fun hcond => hcond.2.1 hsame.symm]
        have hlive : (some (joinPath h.config.basePath name)).toList ++ s.tasks = s.live := by
          rw [hsame, ← hs.attached hrunning, live]
        exact hs.of_sublist (hlive ▸ Sublist.refl _) (messagesIn_open s.files _) rfl fun _ => rfl
      · have hbefore : ∀ task ∈ s.tasks, task ∈ s.live :=
          fun task htask => (tasks_sublist_live s).subset htask
        split
        · rw [scheduleCompression]
          split
          · exact hs.move hsafe rfl rfl rfl rfl hbefore hs.nodup_tasks
          · exact hs.move hsafe rfl rfl rfl rfl (hs.scheduled hrunning).1 (hs.scheduled hrunning).2
        · exact hs.move hsafe rfl rfl rfl rfl hbefore hs.nodup_tasks

end State

/-! ## Runs -/

/-- The path to which a message makes the channel rotate, if any. -/
def rotationTarget (h : ChannelHandler) (s : State) (messageSize now : Nat) : Option Path :=
  let rType := (needsRotation h s messageSize now).2
  if rType = .no then none else
    (replacePlaceholders h (rotatedCounter s.counter rType) now).map (joinPath h.config.basePath)

/-- If a message makes the channel rotate, then to the file that is open or to a safe path. -/
def SafeRotation (h : ChannelHandler) (s : State) : Event → Prop
  | .message messageSize now _ _ =>
    ∀ path ∈ rotationTarget h s messageSize now, path = s.currentFile ∨ s.Safe path
  | .task _ => True

instance (h : ChannelHandler) (s : State) (e : Event) : Decidable (SafeRotation h s e) :=
  match e with
  | .message messageSize now _ _ =>
    inferInstanceAs
      (Decidable (∀ path ∈ rotationTarget h s messageSize now, path = s.currentFile ∨ s.Safe path))
  | .task _ => isTrue trivial

theorem needsRotation_cases (h : ChannelHandler) (s : State) (messageSize now : Nat) :
    (needsRotation h s messageSize now).1 = { s with lastRotationCheck := now } ∨ needsRotation h s
      messageSize now = ({ s with lastRotationCheck := now, running := false }, .no) := by
  rw [needsRotation]
  split
  · exact .inl rfl
  · split
    · cases replacePlaceholders h s.counter now with
      | none => exact .inr rfl
      | some candidatePath => exact .inl rfl
    · exact .inl rfl

theorem invariant_workerRound {h : ChannelHandler} {s : State} (hs : s.Invariant)
    {messageSize now : Nat} (opening : Opening) (scheduler : Bool)
    (hsafe : ∀ path ∈ rotationTarget h s messageSize now, path = s.currentFile ∨ s.Safe path) :
    (workerRound h s messageSize now opening scheduler).Invariant := by
  rw [workerRound]
  split_ifs with hworks
  · exact hs
  · have hrunning : s.running = true := Bool.not_eq_false _ ▸ fun hfalse => hworks (.inl hfalse)
    have hwrite : ∀ {t : State}, t.Invariant →
        (if t.running then writeMessage t messageSize else t).Invariant := by
      intro t ht
      split_ifs with hrun
      · exact ht.writeMessage hrun messageSize
      · exact ht
    dsimp only
    apply hwrite
    have hchecked : State.Invariant { s with lastRotationCheck := now } :=
      hs.of_sublist (Sublist.refl _) (fun _ => rfl) rfl hs.attached
    rcases needsRotation_cases h s messageSize now with hcheck | hclosed
    · split_ifs with hrotates
      · rw [hcheck]
        refine hchecked.rotateFile hrunning h _ opening scheduler fun name hname => hsafe _ ?_
        rw [rotationTarget, if_neg hrotates]
        exact Option.map_eq_some_iff.2 ⟨name, hname, rfl⟩
      · rw [hcheck]
        exact hchecked
    · rw [hclosed, if_neg fun hrotates => hrotates rfl]
      exact hs.of_sublist (Sublist.refl _) (fun _ => rfl) rfl (fun hrun => Bool.noConfusion hrun)

theorem invariant_step {h : ChannelHandler} {s t : State} {e : Event} (hs : s.Invariant)
    (hsafe : SafeRotation h s e) (hstep : step h s e = some t) : t.Invariant := by
  cases e with
  | message messageSize now opening scheduler =>
    obtain rfl := Option.some_inj.1 hstep
    exact invariant_workerRound hs opening scheduler hsafe
  | task path =>
    rw [step] at hstep
    split at hstep
    · rename_i hpath
      obtain rfl := Option.some_inj.1 hstep
      exact hs.runTask (contains_iff_mem.1 hpath)
    · cases hstep

/-- In every run all rotations of which are safe, each message that has been written is at exactly
one path. -/
theorem messages_kept (h : ChannelHandler) (init s : State) (es : List Event) (hinit : init.Opened)
    (hrun : (system h init).runFrom init es = some s)
    (hsafe : (system h init).StepsMeet (SafeRotation h) init es) : s.Kept :=
  ((system h init).runFrom_induction_of_stepsMeet
    (fun _ _ _ hs hok hstep => invariant_step hs hok hstep) hinit.invariant hsafe hrun).kept

/-- A channel with a file for each day and counter, of at most a mebibyte. -/
def dailyHandler : ChannelHandler where
  config :=
    { basePath := ['/', 'b']
      pattern := placeholder ['D', 'D'] ++ '-' :: placeholder ['c', 'o', 'u', 'n', 't', 'e', 'r']
      maxSize := 1048576
      shouldCompress := true }
  channelName := ['a']
  localtime now := some ⟨126, 0, 1, now / 3600⟩

def dailyStart : State where
  currentFile := ['/', 'b', '/', '0', '1', '-', '0']
  outputFile := some ['/', 'b', '/', '0', '1', '-', '0']
  lastRotation := 0
  lastRotationCheck := 0
  currentSize := 0
  counter := 0
  running := true
  files := ⟨[(['/', 'b', '/', '0', '1', '-', '0'], ⟨0, []⟩)]⟩
  tasks := []
  written := 0

theorem dailyStart_opened : dailyStart.Opened where
  attached := rfl
  nodup := by decide
  apart := by decide
  written := rfl
  empty path := by
    apply eq_nil_iff_forall_not_mem.2
    intro i hi
    obtain ⟨entry, hentry, hmem⟩ := exists_of_mem_messagesIn hi
    rw [mem_singleton.1 hentry] at hmem
    exact absurd hmem not_mem_nil

/-- Two messages between which the channel rotates for size, and the compression of the first
file. -/
def dailyEvents : List Event :=
  [.message 1048556 0 .opened true, .message 30 0 .opened true,
    .task ['/', 'b', '/', '0', '1', '-', '0']]

theorem messages_kept_daily :
    ∃ s, (system dailyHandler dailyStart).runFrom dailyStart dailyEvents = some s ∧ s.written = 2 ∧
      s.Kept := by
  obtain ⟨s, hrun, hwritten⟩ : ∃ s,
      (system dailyHandler dailyStart).runFrom dailyStart dailyEvents = some s ∧ s.written = 2 :=
    ⟨_, rfl, rfl⟩
  exact ⟨s, hrun, hwritten,
    messages_kept dailyHandler dailyStart s dailyEvents dailyStart_opened hrun (by decide +kernel)⟩

/-- The rotation for time at the next full hour, a rotation for size, and a second compression of
the file of counter 0. -/
def nextHourEvents : List Event :=
  [.message 10 3600 .opened true, .message 1048576 3600 .opened true,
    .task ['/', 'b', '/', '0', '1', '-', '0']]

/-- The file of counter 0 is compressed, opened again at the next full hour, and compressed once
more: the first message is then in no file. -/
theorem first_message_lost :
    dailyStart.Opened ∧ ∃ s,
      (system dailyHandler dailyStart).runFrom dailyStart (dailyEvents ++ nextHourEvents) = some s ∧
      0 < s.written ∧ ∀ path, 0 ∉ messagesIn s.files path := by
  refine ⟨dailyStart_opened, ?_⟩
  have hlost :
      ((system dailyHandler dailyStart).runFrom dailyStart (dailyEvents ++ nextHourEvents)).any
      (fun s => decide (0 < s.written ∧ ∀ entry ∈ s.files.entries, 0 ∉ entry.2.messages)) =
        true := by
    decide +kernel
  cases hrun :
    (system dailyHandler dailyStart).runFrom dailyStart (dailyEvents ++ nextHourEvents) with
  | none =>
    rw [hrun] at hlost
    cases hlost
  | some s =>
    rw [hrun] at hlost
    obtain ⟨hwritten, hentries⟩ := of_decide_eq_true hlost
    refine ⟨s, rfl, hwritten, fun path hpath => ?_⟩
    obtain ⟨entry, hentry, hmem⟩ := exists_of_mem_messagesIn hpath
    exact hentries entry hentry hmem

end WazAISentinel.Streamlog
