import ArmAssembly.File.Session
import ArmAssembly.Proofs.Respaced
import ArmAssembly.Proofs.Writing

set_option autoImplicit false

/-! # What happens to the output file

The output file is opened, and so emptied, when all else has gone well: the source was read, the
program has an image, and the listing was printed. Up to then a failure leaves the disk as it was,
even if the output file is the input file. From then on no file changes but this one, and it holds
what was written so far, which is the whole image if nothing fails (`assembleFile_ending`). This is
so on every system that works on a disk as files do, whatever fails at which time
(`Host.WorksOn`).
-/

namespace ArmAssembly

/-! ## One file of a disk

A file is found by walking through directories, which do not change when a file is written. So a
file that was created is found again under its name, whatever was written to it in between. -/

namespace Disk

variable {disk : Disk} {place : Place}

theorem setNode_setNode (disk : Disk) (place : Place) (first second : Node) :
    (disk.setNode place first).setNode place second = disk.setNode place second := by
  simp only [setNode, Disk.mk.injEq, and_self, and_true]
  funext other
  by_cases hother : other = place
  · rw [if_pos hother, if_pos hother]
  · rw [if_neg hother, if_neg hother, if_neg hother]

theorem contents_setNode (disk : Disk) (place : Place) (bytes : List UInt8) :
    (disk.setNode place (.file bytes)).contents place = bytes := by
  simp only [contents, setNode, if_pos]

/-- A way through directories stays open when a file is written. -/
theorem walk_setNode (hplace : disk.node? place ≠ some .directory) (bytes : List UInt8)
    {start last : Place} {names : List (List UInt8)} (h : disk.walk start names = .ok last) :
    (disk.setNode place (.file bytes)).walk start names = .ok last := by
  induction names generalizing start with
  | nil => exact h
  | cons name names ih =>
      unfold walk at h ⊢
      split_ifs at h ⊢
      · exact ih h
      · exact ih h
      · split at h
        -- the walk goes through directories, and the file that is written to is none
        · next hdirectory =>
            have hother : name :: start ≠ place := by
              rintro rfl
              exact hplace hdirectory
            simp only [setNode, if_neg hother, hdirectory]
            exact ih h
        · cases h
        · cases h

theorem lastStep_setNode (hplace : disk.node? place ≠ some .directory) (bytes : List UInt8)
    {name : FileName} {step : LastStep} (h : disk.lastStep name = .ok step) :
    (disk.setNode place (.file bytes)).lastStep name = .ok step := by
  have hworking : (disk.setNode place (.file bytes)).workingDirectory = disk.workingDirectory := rfl
  simp only [lastStep, hworking] at h ⊢
  generalize (if name.bytes.head? = some slash then [] else disk.workingDirectory) = start at h ⊢
  split_ifs at h ⊢
  split at h
  · exact h
  · next last _ =>
      obtain ⟨directory, hwalk, h⟩ := bind_eq_ok_iff.mp h
      rw [walk_setNode hplace bytes hwalk]
      exact h

/-- A file can be created where a name ends that is not too long, unless a directory is there. -/
theorem create_eq_ok {name : FileName} {emptied : Disk}
    (h : disk.create name = .ok (place, emptied)) :
    disk.lastStep name = .ok (.entry place false) ∧ tooLong place = false ∧
      disk.node? place ≠ some .directory ∧ emptied = disk.setNode place (.file []) := by
  unfold create at h
  obtain ⟨step, hstep, h⟩ := bind_eq_ok_iff.mp h
  cases step with
  | directory directory => cases h
  | entry entry slashed =>
      simp only at h
      -- no slash at the end, no name that is too long, and no directory there
      split_ifs at h with hslashed hlong hdirectory
      cases h
      simp only [Bool.not_eq_true] at hslashed hlong
      exact ⟨by rw [hstep, hslashed], hlong, hdirectory, rfl⟩

/-- What is written to a file is read again under the name that it was created with. -/
theorem read_setNode {name : FileName} {emptied : Disk}
    (h : disk.create name = .ok (place, emptied)) (bytes : List UInt8) :
    (disk.setNode place (.file bytes)).read name = .ok bytes := by
  obtain ⟨hstep, hlong, hplace, -⟩ := create_eq_ok h
  have hnode : (disk.setNode place (.file bytes)).node? place = some (.file bytes) := if_pos rfl
  unfold read
  rw [lastStep_setNode hplace bytes hstep]
  simp only [bind, Except.bind, hlong, hnode]
  rfl

/-- What is appended to a file stands at its end, and may be cut short. -/
theorem append_eq_ok {bytes : List UInt8} {taken : Nat} {longer : Disk}
    (h : disk.append place bytes = .ok (taken, longer)) :
    taken ≤ bytes.length ∧
      longer = disk.setNode place (.file (disk.contents place ++ bytes.take taken)) := by
  simp only [append] at h
  split_ifs at h
  cases h
  refine ⟨?_, rfl⟩
  split
  · exact Nat.le_refl _
  · exact Nat.min_le_left _ _

/-- The disk `new` is the disk `old`, but for the file that `name` leads to: that one holds
`bytes`. -/
structure Rewritten (old : Disk) (name : FileName) (bytes : List UInt8) (new : Disk) : Prop where
  only : ∃ place emptied, old.create name = .ok (place, emptied) ∧
    new = old.setNode place (.file bytes)
  read : new.read name = .ok bytes

theorem rewritten_of_create {name : FileName} {emptied : Disk}
    (h : disk.create name = .ok (place, emptied)) (bytes : List UInt8) :
    disk.Rewritten name bytes (disk.setNode place (.file bytes)) :=
  ⟨⟨place, emptied, h, rfl⟩, read_setNode h bytes⟩

end Disk

/-! ## Systems that work on a disk

A system may fail at any request. All that is asked of it is that it does what it reports: what it
says was written was written, and what failed or only reads leaves the disk alone. -/

section

variable {S : Type}

/-- What the sink accepts is added to the file at `place`, and nothing else changes. -/
structure Sink.AppendsTo (sink : Sink (StateM S)) (disk : S → Disk) (place : Place) : Prop where
  write_ok : ∀ {bytes taken s s'}, sink.write bytes s = (.ok taken, s') → taken ≤ bytes.length ∧
    disk s' = (disk s).setNode place (.file ((disk s).contents place ++ bytes.take taken))
  write_error : ∀ {bytes error s s'}, sink.write bytes s = (.error error, s') → disk s' = disk s
  flush : ∀ {answer s s'}, sink.flush s = (answer, s') → disk s' = disk s

/-- The host works on a disk as files do. Each of its operations may fail at any time, and then
nothing changes. -/
structure Host.WorksOn (host : Host (StateM S)) (disk : S → Disk) : Prop where
  read : ∀ {name answer s s'}, host.read name s = (answer, s') → disk s' = disk s
  read_ok : ∀ {name bytes s s'}, host.read name s = (.ok bytes, s') →
    (disk s).read name = .ok bytes
  print : ∀ {text answer s s'}, host.print text s = (answer, s') → disk s' = disk s
  create_ok : ∀ {name sink s s'}, host.create name s = (.ok sink, s') →
    ∃ place, (disk s).create name = .ok (place, disk s') ∧ sink.AppendsTo disk place
  create_error : ∀ {name error s s'}, host.create name s = (.error error, s') → disk s' = disk s

theorem Session.fileSink_appendsTo (place : Place) :
    (Session.fileSink place).AppendsTo Session.disk place where
  write_ok := by
    intro bytes taken s s' h
    simp only [fileSink] at h
    split at h <;> cases h
    next happend => exact Disk.append_eq_ok happend
  write_error := by
    intro bytes error s s' h
    simp only [fileSink] at h
    split at h <;> cases h
    rfl
  flush := by
    rintro _ s _ ⟨⟩
    rfl

/-- A session works on its disk. -/
theorem Session.worksOn : Session.host.WorksOn Session.disk where
  read := by
    rintro name _ s _ ⟨⟩
    rfl
  read_ok := by
    rintro name bytes s s' h
    exact (Prod.mk.inj h).1
  print := by
    intro text answer s s' h
    simp only [host, Session.print] at h
    split_ifs at h <;> cases h <;> rfl
  create_ok := by
    intro name sink s s' h
    simp only [host, Session.create] at h
    split at h <;> cases h
    next hcreate => exact ⟨_, hcreate, fileSink_appendsTo _⟩
  create_error := by
    intro name error s s' h
    simp only [host, Session.create] at h
    split at h <;> cases h
    rfl

/-! ## How assembling a file ends

Each request can be the last one. So there is an ending for each of them, which tells what has gone
well before and what the disk is like, and one more for the file that is complete. -/

/-- The file `input` is read and holds the text `source`. -/
def Host.Reads (host : Host (StateM S)) (disk : S → Disk) (input : FileName) (s : S)
    (source : List Char) (s' : S) : Prop :=
  ∃ bytes text, host.read input s = (.ok bytes, s') ∧ (disk s).read input = .ok bytes ∧
    utf8? bytes = some text ∧ source = text.toList

/-- The text is printed, if it is to be. -/
def Host.Prints (host : Host (StateM S)) (list : Bool) (text : String) (s s' : S) : Prop :=
  if list then host.print text s = (.ok (), s') else s' = s

/-- How assembling the file `input` into the file `output` ends, and what disk is left then. Each
case presumes that nothing went wrong in the cases before it. -/
inductive Ending (host : Host (StateM S)) (disk : S → Disk) (input output : FileName) (list : Bool)
    (s : S) : Except Failure Unit → Disk → Prop where
  /-- The input file is not read. -/
  | unread {error : IoError} (answer : (host.read input s).1 = .error error) :
      Ending host disk input output list s (.error (.input input error)) (disk s)
  /-- The input file holds no text. -/
  | notText {bytes : List UInt8} (answer : (host.read input s).1 = .ok bytes)
      (invalid : utf8? bytes = none) :
      Ending host disk input output list s (.error (.input input .notText)) (disk s)
  /-- The program is not assembled. -/
  | refused {source : List Char} {s₁ : S} {cause : Cause} {here : Location}
      (reads : host.Reads disk input s source s₁)
      (refused : assembleSource source = .error (.program cause here)) :
      Ending host disk input output list s (.error (.program cause here)) (disk s)
  /-- The listing is not printed. -/
  | unlisted {source : List Char} {s₁ : S} {binary : Binary} {error : IoError}
      (reads : host.Reads disk input s source s₁) (assembled : assembleSource source = .ok binary)
      (listed : list = true) (answer : (host.print (binary.listing source) s₁).1 = .error error) :
      Ending host disk input output list s (.error (.listing error)) (disk s)
  /-- The output file is not opened. -/
  | unopened {source : List Char} {s₁ s₂ : S} {binary : Binary} {error : IoError}
      (reads : host.Reads disk input s source s₁) (assembled : assembleSource source = .ok binary)
      (prints : host.Prints list (binary.listing source) s₁ s₂)
      (answer : (host.create output s₂).1 = .error error) :
      Ending host disk input output list s (.error (.output output error)) (disk s)
  /-- Writing to the output file ends before all is written and flushed. -/
  | broken {source : List Char} {s₁ s₂ s₃ : S} {binary : Binary} {sink : Sink (StateM S)}
      {error : IoError} {kept : List UInt8} {final : Disk}
      (reads : host.Reads disk input s source s₁) (assembled : assembleSource source = .ok binary)
      (prints : host.Prints list (binary.listing source) s₁ s₂)
      (opened : host.create output s₂ = (.ok sink, s₃))
      (answer : (sink.writeImage binary.image.toList s₃).1 = .error error)
      (part : kept <+: binary.image.toList) (rewritten : (disk s).Rewritten output kept final) :
      Ending host disk input output list s (.error (.output output error)) final
  /-- The image is written. -/
  | complete {source : List Char} {s₁ s₂ s₃ : S} {binary : Binary} {sink : Sink (StateM S)}
      {final : Disk} (reads : host.Reads disk input s source s₁)
      (assembled : assembleSource source = .ok binary)
      (prints : host.Prints list (binary.listing source) s₁ s₂)
      (opened : host.create output s₂ = (.ok sink, s₃))
      (answer : (sink.writeImage binary.image.toList s₃).1 = .ok ())
      (rewritten : (disk s).Rewritten output binary.image.toList final) :
      Ending host disk input output list s (.ok ()) final

/-- What follows happens in the state that was reached, unless there was a failure. -/
theorem run_bind {α β : Type} (x : ExceptT Failure (StateM S) α)
    (f : α → ExceptT Failure (StateM S) β) (s : S) :
    (x >>= f).run.run s = match x.run.run s with
      | (.ok a, s') => (f a).run.run s'
      | (.error failure, s') => (.error failure, s') := by
  show (ExceptT.bindCont f (x.run.run s).1) (x.run.run s).2 = _
  generalize x.run.run s = outcome
  obtain ⟨_ | _, _⟩ := outcome <;> rfl

section

variable {host : Host (StateM S)} {disk : S → Disk} {input output : FileName} {list : Bool}

/-- Reading the source changes nothing, and fails only over the input. -/
theorem readSource_cases (hhost : host.WorksOn disk) (input output : FileName) (list : Bool)
    (s : S) :
    (∃ source s₁, (readSource host input).run.run s = (.ok source, s₁) ∧
        host.Reads disk input s source s₁ ∧ disk s₁ = disk s) ∨
      ∃ failure s₁, (readSource host input).run.run s = (.error failure, s₁) ∧
        Ending host disk input output list s (.error failure) (disk s₁) := by
  rw [readSource, run_bind, run_attempt]
  rcases hread : host.read input s with ⟨answer, s₁⟩
  have hdisk := hhost.read hread
  cases answer with
  | error error =>
      refine .inr ⟨_, _, rfl, ?_⟩
      rw [hdisk]
      exact .unread (by rw [hread])
  | ok bytes =>
      cases htext : utf8? bytes with
      | none =>
          refine .inr ⟨_, _, by simp only [Except.mapError, htext]; rfl, ?_⟩
          rw [hdisk]
          exact .notText (by rw [hread]) htext
      | some text =>
          refine .inl ⟨_, _, by simp only [Except.mapError, htext]; rfl, ?_, hdisk⟩
          exact ⟨bytes, text, hread, hhost.read_ok hread, htext, rfl⟩

/-- While an image is written, the file holds what was accepted of it, and nothing else changes. -/
theorem progresses_of_appendsTo {sink : Sink (StateM S)} {place : Place}
    (hsink : sink.AppendsTo disk place) (old : Disk) (image : List UInt8) :
    sink.Progresses image (fun n s => disk s = old.setNode place (.file (image.take n)))
      fun result s => ∃ kept, disk s = old.setNode place (.file kept) ∧ kept <+: image ∧
        (result = .ok () → kept = image) where
  write n s _ hdisk := by
    rcases hwrite : sink.write (unaccepted image n) s with ⟨error | _ | taken, s'⟩
    · rw [← hsink.write_error hwrite] at hdisk
      exact ⟨_, hdisk, List.take_prefix n image, nofun⟩
    · obtain ⟨-, happended⟩ := hsink.write_ok hwrite
      refine ⟨_, ?_, List.take_prefix n image, nofun⟩
      rw [happended, hdisk, Disk.contents_setNode, Disk.setNode_setNode, List.take_zero,
        List.append_nil]
    · obtain ⟨hle, happended⟩ := hsink.write_ok hwrite
      refine ⟨hle, ?_⟩
      show disk s' = _
      rw [happended, hdisk, Disk.contents_setNode, Disk.setNode_setNode,
        take_append_unaccepted image hle]
  flush s hdisk := by
    refine ⟨image, ?_, List.prefix_rfl, fun _ => rfl⟩
    rw [hsink.flush rfl, hdisk, List.take_length]

/-- What is left to do when all has gone well so far: the output file is opened and written. -/
theorem ending_of_prints (hhost : host.WorksOn disk) {s s₁ s₂ : S} {source : List Char}
    {binary : Binary} (hreads : host.Reads disk input s source s₁)
    (hassembled : assembleSource source = .ok binary)
    (hprints : host.Prints list (binary.listing source) s₁ s₂) (hdisk : disk s₂ = disk s) :
    let run := (do
      let sink ← attempt (.output output) (host.create output)
      writeBinary sink binary output : ExceptT Failure (StateM S) Unit).run.run s₂
    Ending host disk input output list s run.1 (disk run.2) := by
  intro run
  have hrun : run = _ := run_bind _ _ s₂
  rw [run_attempt] at hrun
  rcases hcreate : host.create output s₂ with ⟨error | sink, s₃⟩
  · rw [hcreate] at hrun
    rw [hrun]
    show Ending host disk input output list s (.error (.output output error)) (disk s₃)
    rw [hhost.create_error hcreate, hdisk]
    exact .unopened hreads hassembled hprints (by rw [hcreate])
  · obtain ⟨place, hplace, hsink⟩ := hhost.create_ok hcreate
    rw [hdisk] at hplace
    have hempty : disk s₃ = (disk s).setNode place (.file []) := (Disk.create_eq_ok hplace).2.2.2
    -- from here on the file holds what was accepted, and at the end this is all
    obtain ⟨kept, hkept, hpart, hwhole⟩ :=
      (progresses_of_appendsTo hsink (disk s) binary.image.toList).writeImage hempty
    rw [hcreate] at hrun
    have hwritten : run = ((sink.writeImage binary.image.toList s₃).1.mapError (.output output),
        (sink.writeImage binary.image.toList s₃).2) := hrun.trans (run_attempt _ _ s₃)
    rw [hwritten]
    have hrewritten := Disk.rewritten_of_create hplace kept
    rw [← hkept] at hrewritten
    cases hresult : (sink.writeImage binary.image.toList s₃).1 with
    | error error => exact .broken hreads hassembled hprints hcreate hresult hpart hrewritten
    | ok _ =>
        rw [hwhole hresult] at hrewritten
        exact .complete hreads hassembled hprints hcreate hresult hrewritten

/-- **A failed assembly never harms the output file.** Whichever files are given, be it twice the
same, and whatever they hold, one of three things happens. The assembly succeeds, and the output
file holds the image of the source that was read. Or it fails over the input, else over the program,
else over the listing, and the disk is as it was. Or it fails over the output, and then the disk is
as it was because the file was not opened, or the file holds what was written of the image. No other
file changes. -/
theorem assembleFile_ending (hhost : host.WorksOn disk) (input output : FileName) (list : Bool)
    (s : S) :
    let run := (assembleFile host input output list).run.run s
    Ending host disk input output list s run.1 (disk run.2) := by
  intro run
  have hrun : run = _ := run_bind _ _ s
  obtain ⟨source, s₁, hread, hreads, hdisk⟩ | ⟨failure, s₁, hread, hending⟩ :=
    readSource_cases hhost input output list s
  case inr =>
      rw [hrun, hread]
      exact hending
  rw [hread] at hrun
  replace hrun := hrun.trans (run_bind _ _ s₁)
  -- the disk is still the same, whether or not there is an image
  cases hassembled : assembleSource source with
  | error failure =>
      obtain ⟨problem, -, rfl⟩ := exists_problem_of_assembleSource hassembled
      rw [hassembled] at hrun
      rw [hrun]
      show Ending host disk input output list s (.error (problem.failure source)) (disk s₁)
      rw [hdisk]
      exact .refused hreads hassembled
  | ok binary =>
      rw [hassembled] at hrun
      cases list with
      | false =>
          rw [hrun]
          exact ending_of_prints hhost hreads hassembled rfl hdisk
      | true =>
          replace hrun := hrun.trans (run_bind _ _ s₁)
          rw [run_attempt] at hrun
          rcases hprint : host.print (binary.listing source) s₁ with ⟨error | _, s₂⟩
          · rw [hprint] at hrun
            rw [hrun]
            show Ending host disk input output true s (.error (.listing error)) (disk s₂)
            rw [hhost.print hprint, hdisk]
            exact .unlisted hreads hassembled rfl (by rw [hprint])
          · rw [hprint] at hrun
            rw [hrun]
            exact ending_of_prints hhost hreads hassembled hprint ((hhost.print hprint).trans hdisk)

end

end

/-- A disk with one file, which is named `a` and is longer than the image of the program in it. -/
def lonelyFile : Session where
  disk.node? place := if place = [[97]] then some (.file "MOVi R0, #5".toUTF8.toList) else none
  disk.room? _ := none
  disk.workingDirectory := []
  outputFull := false
  printed := ""

theorem utf8?_lonelyFile : utf8? "MOVi R0, #5".toUTF8.toList = some "MOVi R0, #5" := by cbv

theorem reads_lonelyFile {source : List Char} {s : Session}
    (h : Session.host.Reads Session.disk ⟨[97]⟩ lonelyFile source s) :
    source = "MOVi R0, #5".toList ∧ s = lonelyFile := by
  obtain ⟨bytes, text, hbytes, -, hsource, rfl⟩ := h
  cases hbytes
  rw [utf8?_lonelyFile] at hsource
  cases hsource
  exact ⟨rfl, rfl⟩

/-- The image of the program takes the place of its text. -/
theorem assembleFile_lonelyFile :
    let run := (assembleFile Session.host ⟨[97]⟩ ⟨[97]⟩ false).run.run lonelyFile
    run.1 = .ok () ∧ run.2.disk.read ⟨[97]⟩ = .ok [0x05, 0x00, 0x00, 0xe3] := by
  intro run
  have hscan : scan "MOVi R0, #5".toList = .ok moveFiveTokens := by cbv
  obtain ⟨binary, hbinary, -, himage⟩ :=
    assembleSource_of_phrase hscan moveFiveTokens_phrase rfl
  have hending : Ending Session.host Session.disk ⟨[97]⟩ ⟨[97]⟩ false lonelyFile run.1 run.2.disk :=
    assembleFile_ending Session.worksOn _ _ _ _
  generalize run.1 = result, run.2.disk = final at hending
  cases hending with
  | unread answer => cases answer
  | notText answer invalid =>
      cases answer
      rw [utf8?_lonelyFile] at invalid
      cases invalid
  | refused reads refused =>
      obtain ⟨rfl, rfl⟩ := reads_lonelyFile reads
      rw [hbinary] at refused
      cases refused
  | unlisted _ _ listed => cases listed
  | unopened reads assembled prints answer =>
      obtain ⟨rfl, rfl⟩ := reads_lonelyFile reads
      cases prints
      cases answer
  | broken reads assembled prints opened answer =>
      obtain ⟨rfl, rfl⟩ := reads_lonelyFile reads
      rw [hbinary] at assembled
      cases assembled
      cases prints
      cases opened
      rw [himage] at answer
      cbv at answer
      cases answer
  | complete reads assembled prints opened answer rewritten =>
      obtain ⟨rfl, rfl⟩ := reads_lonelyFile reads
      rw [hbinary] at assembled
      cases assembled
      refine ⟨rfl, ?_⟩
      rw [rewritten.read, himage]
      rfl

end ArmAssembly
