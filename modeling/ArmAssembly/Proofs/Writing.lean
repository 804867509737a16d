import ArmAssembly.File.Host
import Mathlib

set_option autoImplicit false

/-! # Writing to any writer

An image is written by two loops, one over its chunks and one inside a chunk, and a writer may take
as few bytes as it likes and may fail at any time. Wherever it stops, what counts is one number: how
many bytes it has accepted. The next request is the rest of the chunk that this byte lies in
(`unaccepted`), so what holds at one number and is carried to the next one by every write holds
throughout (`Sink.Progresses.writeImage`). Followed call by call, this shows what a writer is asked
to do and what becomes of its answers (`writeBinary_delivers`).
-/

namespace ArmAssembly

/-! ## The next request -/

/-- The chunk that byte `n` of the image lies in. -/
def chunkAt (image : List UInt8) (n : Nat) : List UInt8 :=
  (image.drop (chunkSize * (n / chunkSize))).take chunkSize

/-- What is left of its chunk from byte `n` on. -/
def unaccepted (image : List UInt8) (n : Nat) : List UInt8 :=
  (chunkAt image n).drop (n % chunkSize)

theorem chunkSize_pos : 0 < chunkSize := by decide

theorem unaccepted_eq (image : List UInt8) (n : Nat) :
    unaccepted image n = (image.drop n).take (chunkSize - n % chunkSize) := by
  rw [unaccepted, chunkAt, List.drop_take, List.drop_drop, Nat.div_add_mod]

theorem length_unaccepted_le (image : List UInt8) (n : Nat) :
    (unaccepted image n).length ≤ chunkSize := by
  rw [unaccepted_eq, List.length_take]
  omega

theorem length_unaccepted_le_sub (image : List UInt8) (n : Nat) :
    (unaccepted image n).length ≤ image.length - n := by
  rw [unaccepted_eq, List.length_take, List.length_drop]
  exact Nat.min_le_right _ _

theorem unaccepted_ne_nil {image : List UInt8} {n : Nat} (h : n < image.length) :
    unaccepted image n ≠ [] := by
  have hmod := Nat.mod_lt n chunkSize_pos
  rw [← List.length_pos_iff, unaccepted_eq, List.length_take, List.length_drop]
  omega

/-- Accepted bytes go on where the image was left. -/
theorem take_append_unaccepted (image : List UInt8) {n taken : Nat}
    (h : taken ≤ (unaccepted image n).length) :
    image.take n ++ (unaccepted image n).take taken = image.take (n + taken) := by
  rw [unaccepted_eq] at h ⊢
  rw [List.length_take] at h
  rw [List.take_take, Nat.min_eq_left (by omega), List.take_add]

/-- In a chunk, what is left behind some of its bytes. -/
theorem unaccepted_add {image : List UInt8} {n taken : Nat} (hbegins : n % chunkSize = 0)
    (h : taken < chunkSize) :
    unaccepted image (n + taken) = (unaccepted image n).drop taken := by
  have hmod : (n + taken) % chunkSize = taken := by
    rw [Nat.add_mod, hbegins, Nat.zero_add, Nat.mod_mod, Nat.mod_eq_of_lt h]
  rw [unaccepted_eq, unaccepted_eq, hmod, hbegins, List.drop_take, List.drop_drop, Nat.sub_zero]

/-! ## The two loops

Both loops end where a writer fails or takes nothing. Otherwise they come to the number of bytes at
the end of the chunk, or of the image, and an invariant of this number is carried along. -/

section

variable {S : Type}

/-- What holds behind a write: the error ends it, as does an answer of no bytes; else at most `most`
bytes were accepted, and `R` holds of their number. -/
def AfterWrite (most : Nat) (R : Nat → S → Prop) (E : IoError → S → Prop) :
    Except IoError Nat × S → Prop
  | (.error error, s) => E error s
  | (.ok 0, s) => E .writeZero s
  | (.ok (taken + 1), s) => taken + 1 ≤ most ∧ R (taken + 1) s

/-- What holds behind a loop. -/
def AfterLoop (R : S → Prop) (E : IoError → S → Prop) : Except IoError Unit × S → Prop
  | (.error error, s) => E error s
  | (.ok _, s) => R s

namespace Sink

variable {sink : Sink (StateM S)} {image : List UInt8}

theorem writeAll_nil (s : S) : sink.writeAll [] s = (.ok (), s) := by
  rw [writeAll]
  rfl

/-- One turn of the loop inside a chunk. -/
theorem writeAll_of_ne_nil {bytes : List UInt8} (h : bytes ≠ []) (s : S) :
    sink.writeAll bytes s = match sink.write bytes s with
      | (.error error, s') => (.error error, s')
      | (.ok 0, s') => (.error .writeZero, s')
      | (.ok (taken + 1), s') => sink.writeAll (bytes.drop (taken + 1)) s' := by
  obtain ⟨b, rest, rfl⟩ := List.exists_cons_of_ne_nil h
  rw [writeAll]
  simp only [bind, StateT.bind]
  generalize sink.write (b :: rest) s = answer
  obtain ⟨_ | _ | taken, s'⟩ := answer <;> rfl

theorem writeChunks_cons (chunk : List UInt8) (rest : List (List UInt8)) (s : S) :
    sink.writeChunks (chunk :: rest) s = match sink.writeAll chunk s with
      | (.error error, s') => (.error error, s')
      | (.ok _, s') => sink.writeChunks rest s' := by
  rw [writeChunks]
  simp only [bind, StateT.bind]
  generalize sink.writeAll chunk s = answer
  obtain ⟨_ | _, s'⟩ := answer <;> rfl

/-- The loop inside a chunk: what every write carries on, from `taken` accepted bytes to some more,
holds of the whole chunk in the end. -/
theorem afterLoop_writeAll {chunk : List UInt8} {R : Nat → S → Prop} {E : IoError → S → Prop}
    (hwrite : ∀ taken s, taken < chunk.length → R taken s →
      AfterWrite (chunk.length - taken) (fun more => R (taken + more)) E
        (sink.write (chunk.drop taken) s))
    (taken : Nat) {s : S} (hle : taken ≤ chunk.length) (hR : R taken s) :
    AfterLoop (R chunk.length) E (sink.writeAll (chunk.drop taken) s) := by
  -- on the number of bytes that are left
  induction hleft : chunk.length - taken using Nat.strongRecOn generalizing taken s with
  | ind left ih =>
      subst hleft
      rcases Nat.eq_or_lt_of_le hle with rfl | hlt
      · rw [List.drop_length, writeAll_nil]
        exact hR
      · have hne : chunk.drop taken ≠ [] := fun hnil => by
          have := List.drop_eq_nil_iff.mp hnil
          omega
        have hafter := hwrite taken s hlt hR
        rw [writeAll_of_ne_nil hne]
        generalize sink.write (chunk.drop taken) s = answer at hafter
        -- a failure and an empty write end the loop, all other writes leave fewer bytes
        obtain ⟨_ | _ | more, s'⟩ := answer
        · exact hafter
        · exact hafter
        · obtain ⟨hmost, hmore⟩ := hafter
          simp only [List.drop_drop]
          exact ih _ (by omega) _ (by omega) hmore rfl

/-- What holds when `n` bytes of the image were accepted is `R n`, and `Q` is what holds at the
end. -/
structure Progresses (sink : Sink (StateM S)) (image : List UInt8) (R : Nat → S → Prop)
    (Q : Except IoError Unit → S → Prop) : Prop where
  write : ∀ n s, n < image.length → R n s →
    AfterWrite (unaccepted image n).length (fun taken => R (n + taken))
      (fun error => Q (.error error)) (sink.write (unaccepted image n) s)
  flush : ∀ s, R image.length s → Q (sink.flush s).1 (sink.flush s).2

namespace Progresses

variable {R : Nat → S → Prop} {Q : Except IoError Unit → S → Prop}

/-- The chunk that begins at byte `n` of the image. -/
theorem writeAll (h : sink.Progresses image R Q) {n : Nat} (hbegins : n % chunkSize = 0) {s : S}
    (hR : R n s) :
    AfterLoop (R (n + (unaccepted image n).length)) (fun error => Q (.error error))
      (sink.writeAll (unaccepted image n) s) := by
  refine afterLoop_writeAll (R := fun taken => R (n + taken)) ?_ 0 (Nat.zero_le _) hR
  intro taken s hlt hR
  have hchunk := length_unaccepted_le image n
  have hrest := length_unaccepted_le_sub image n
  have hafter := h.write (n + taken) s (by omega) hR
  rw [unaccepted_add hbegins (by omega)] at hafter
  simpa only [List.length_drop, Nat.add_assoc] using hafter

/-- All chunks from byte `n` of the image on. -/
theorem writeChunks (h : sink.Progresses image R Q) {n : Nat} {rest : List UInt8}
    (hrest : image.drop n = rest) (hbegins : rest ≠ [] → n % chunkSize = 0)
    (hle : n ≤ image.length) {s : S} (hR : R n s) :
    Q (sink.writeChunks (chunks rest) s).1 (sink.writeChunks (chunks rest) s).2 := by
  fun_induction chunks rest generalizing n s with
  | case1 =>
      have hwhole : n = image.length := by
        have := List.drop_eq_nil_iff.mp hrest
        omega
      exact h.flush s (hwhole ▸ hR)
  | case2 b rest ih =>
      have hchunk : b :: rest.take (chunkSize - 1) = unaccepted image n := by
        rw [unaccepted_eq, hrest, hbegins (List.cons_ne_nil _ _)]
        rfl
      have hafter := h.writeAll (hbegins (List.cons_ne_nil _ _)) hR
      rw [writeChunks_cons, hchunk]
      generalize sink.writeAll (unaccepted image n) s = answer at hafter
      obtain ⟨_ | _, s'⟩ := answer
      · exact hafter
      · have hlength : (unaccepted image n).length = min (chunkSize - 1) rest.length + 1 := by
          rw [← hchunk, List.length_cons, List.length_take]
        refine ih (n := n + (unaccepted image n).length) ?_ ?_ ?_ hafter
        · rw [hlength, ← List.drop_drop, hrest, List.drop_succ_cons, List.drop_eq_drop_iff]
          omega
        -- if something is left, then the chunk before it was a full one
        · intro hmore
          have hfull : (unaccepted image n).length = chunkSize := by
            have hpos := chunkSize_pos
            have hlt := List.length_pos_iff.mpr hmore
            rw [List.length_drop] at hlt
            omega
          rw [hfull, Nat.add_mod_right]
          exact hbegins (List.cons_ne_nil _ _)
        · have hsub := length_unaccepted_le_sub image n
          omega

theorem writeImage (h : sink.Progresses image R Q) {s : S} (hR : R 0 s) :
    Q (sink.writeImage image s).1 (sink.writeImage image s).2 :=
  h.writeChunks (List.drop_zero) (fun _ => rfl) (Nat.zero_le _) hR

end Progresses

end Sink

/-- A system operation changes the state as it does by itself, and only its failure is renamed. -/
theorem run_attempt {α : Type} (wrap : IoError → Failure) (act : StateM S (Except IoError α))
    (s : S) : (attempt wrap act).run.run s = ((act s).1.mapError wrap, (act s).2) := by
  simp only [attempt, ExceptT.run, ExceptT.mk, StateT.run, bind, StateT.bind]
  generalize act s = answer
  obtain ⟨_ | _, s'⟩ := answer <;> rfl

end

/-! ## Writers

A writer answers by all that it was asked before, so its answers may depend on the whole history.
The loops are followed in a state that holds this history. -/

/-- A call of a writer and its answer. -/
inductive WriterCall where
  | write (offered : List UInt8) (answer : Except IoError Nat)
  | flush (answer : Except IoError Unit)

namespace WriterCall

/-- The bytes that the writer took. -/
def accepted : WriterCall → List UInt8
  | write offered (.ok taken) => offered.take taken
  | _ => []

/-- The failure of a call, if it failed. To accept nothing is a failure. -/
def failure? : WriterCall → Option IoError
  | write _ (.ok 0) => some .writeZero
  | write _ (.error error) | flush (.error error) => some error
  | _ => none

/-- The call is a flush. -/
def isFlush : WriterCall → Bool
  | flush _ => true
  | _ => false

theorem accepted_of_failure? {call : WriterCall} {error : IoError}
    (h : call.failure? = some error) : call.accepted = [] := by
  unfold failure? at h
  split at h
  · rfl
  · rfl
  · rfl
  · cases h

end WriterCall

/-- The bytes that a writer took over some calls. -/
def acceptedBytes (calls : List WriterCall) : List UInt8 :=
  calls.flatMap WriterCall.accepted

theorem acceptedBytes_concat (calls : List WriterCall) (call : WriterCall) :
    acceptedBytes (calls ++ [call]) = acceptedBytes calls ++ call.accepted := by
  rw [acceptedBytes, List.flatMap_append, List.flatMap_singleton, acceptedBytes]

/-- A writer, which answers as it likes, after any calls before. Of the bytes that it is offered it
accepts none, some or all, or it fails. -/
structure Writer where
  write : List WriterCall → (offered : List UInt8) → Except IoError (Fin (offered.length + 1))
  flush : List WriterCall → Except IoError Unit

namespace Writer

variable {writer : Writer} {image : List UInt8} {n : Nat} {calls : List WriterCall}

/-- How many bytes the writer accepts. -/
def answer (writer : Writer) (before : List WriterCall) (offered : List UInt8) :
    Except IoError Nat :=
  (writer.write before offered).map Fin.val

/-- The writer as a sink. The calls are written down with their answers. -/
def sink (writer : Writer) : Sink (StateM (List WriterCall)) where
  write offered := fun calls =>
    (writer.answer calls offered, calls ++ [.write offered (writer.answer calls offered)])
  flush := fun calls => (writer.flush calls, calls ++ [.flush (writer.flush calls)])

theorem le_of_answer {before : List WriterCall} {offered : List UInt8} {taken : Nat}
    (h : writer.answer before offered = .ok taken) : taken ≤ offered.length := by
  unfold answer at h
  cases hwrite : writer.write before offered with
  | error error =>
      rw [hwrite] at h
      cases h
  | ok accepted =>
      rw [hwrite] at h
      cases h
      exact Nat.le_of_lt_succ accepted.isLt

/-- After the calls `before`, the next one asks for what is left of the chunk, or for a flush if
nothing is left of the image; and the answer to it is the writer's. -/
def Proper (writer : Writer) (image : List UInt8) (before : List WriterCall) : WriterCall → Prop
  | .write offered answer => offered = unaccepted image (acceptedBytes before).length ∧
      offered ≠ [] ∧ offered.length ≤ chunkSize ∧ answer = writer.answer before offered
  | .flush answer => acceptedBytes before = image ∧ answer = writer.flush before

/-- Every call is proper after those before it. -/
def AllProper (writer : Writer) (image : List UInt8) (calls : List WriterCall) : Prop :=
  ∀ before call after, calls = before ++ call :: after → writer.Proper image before call

theorem AllProper.concat {call : WriterCall} (h : writer.AllProper image calls)
    (hcall : writer.Proper image calls call) : writer.AllProper image (calls ++ [call]) := by
  intro before other after heq
  rcases List.eq_nil_or_concat' after with rfl | ⟨after, last, rfl⟩
  · obtain ⟨rfl, hlast⟩ := List.append_inj' heq rfl
    cases hlast
    exact hcall
  · rw [← List.cons_append, ← List.append_assoc] at heq
    exact h before other after (List.append_inj' heq rfl).1

/-- What a writer was asked for and what became of it in the end. -/
structure Delivered (writer : Writer) (image : List UInt8) (result : Except IoError Unit)
    (calls : List WriterCall) : Prop where
  accepted : acceptedBytes calls <+: image
  proper : writer.AllProper image calls
  flushes : calls.countP WriterCall.isFlush = if acceptedBytes calls = image then 1 else 0
  ok_iff : result = .ok () ↔ acceptedBytes calls = image ∧ .flush (.ok ()) ∈ calls
  error : ∀ error, result = .error error → ∃ earlier last, calls = earlier ++ [last] ∧
    last.failure? = some error ∧ ∀ call ∈ earlier, call.failure? = none

/-- What a writer was asked for while it has accepted `n` bytes of the image. -/
structure Underway (writer : Writer) (image : List UInt8) (n : Nat) (calls : List WriterCall) :
    Prop where
  accepted : acceptedBytes calls = image.take n
  proper : writer.AllProper image calls
  unflushed : ∀ call ∈ calls, call.isFlush = false
  unfailing : ∀ call ∈ calls, call.failure? = none

namespace Underway

theorem start : writer.Underway image 0 [] where
  accepted := rfl
  proper before call after h := absurd h.symm (by simp)
  unflushed := nofun
  unfailing := nofun

theorem length_acceptedBytes (h : writer.Underway image n calls) (hle : n ≤ image.length) :
    (acceptedBytes calls).length = n := by
  rw [h.accepted, List.length_take_of_le hle]

/-- The next write. -/
theorem proper_write (h : writer.Underway image n calls) (hlt : n < image.length)
    {answer : Except IoError Nat}
    (hanswer : writer.answer calls (unaccepted image n) = answer) :
    writer.AllProper image (calls ++ [.write (unaccepted image n) answer]) := by
  refine h.proper.concat ⟨?_, unaccepted_ne_nil hlt, length_unaccepted_le _ _, hanswer.symm⟩
  rw [h.length_acceptedBytes (Nat.le_of_lt hlt)]

/-- The writer accepts some bytes. -/
theorem advance (h : writer.Underway image n calls) (hlt : n < image.length) {taken : Nat}
    (hanswer : writer.answer calls (unaccepted image n) = .ok (taken + 1)) :
    writer.Underway image (n + (taken + 1))
      (calls ++ [.write (unaccepted image n) (.ok (taken + 1))]) where
  accepted := by
    rw [acceptedBytes_concat, h.accepted]
    exact take_append_unaccepted image (le_of_answer hanswer)
  proper := h.proper_write hlt hanswer
  unflushed := List.forall_mem_append.mpr ⟨h.unflushed, List.forall_mem_singleton.mpr rfl⟩
  unfailing := List.forall_mem_append.mpr ⟨h.unfailing, List.forall_mem_singleton.mpr rfl⟩

/-- The writer fails over a write. -/
theorem refused (h : writer.Underway image n calls) (hlt : n < image.length)
    {answer : Except IoError Nat} (hanswer : writer.answer calls (unaccepted image n) = answer)
    {error : IoError}
    (hfailure : (WriterCall.write (unaccepted image n) answer).failure? = some error) :
    writer.Delivered image (.error error) (calls ++ [.write (unaccepted image n) answer]) := by
  have haccepted : acceptedBytes (calls ++ [.write (unaccepted image n) answer]) =
      image.take n := by
    rw [acceptedBytes_concat, WriterCall.accepted_of_failure? hfailure, List.append_nil, h.accepted]
  -- what was accepted is not all of it, so the writer is not flushed any more
  have hpart : image.take n ≠ image := fun hwhole => by
    have := List.take_eq_self_iff image |>.mp hwhole
    omega
  have hunflushed : ∀ call ∈ calls ++ [.write (unaccepted image n) answer], call.isFlush = false :=
    List.forall_mem_append.mpr ⟨h.unflushed, List.forall_mem_singleton.mpr rfl⟩
  refine ⟨haccepted ▸ List.take_prefix n image, h.proper_write hlt hanswer, ?_, ?_, ?_⟩
  · rw [haccepted, if_neg hpart, List.countP_eq_zero]
    simpa using hunflushed
  · rw [haccepted]
    exact iff_of_false nofun fun hwhole => hpart hwhole.1
  · rintro _ ⟨⟩
    exact ⟨calls, _, rfl, hfailure, h.unfailing⟩

/-- All bytes are accepted and the writer is flushed. -/
theorem flushed (h : writer.Underway image image.length calls) :
    writer.Delivered image (writer.flush calls) (calls ++ [.flush (writer.flush calls)]) := by
  have haccepted : acceptedBytes (calls ++ [.flush (writer.flush calls)]) = image := by
    rw [acceptedBytes_concat, h.accepted, List.take_length]
    exact List.append_nil _
  refine ⟨haccepted ▸ List.prefix_rfl, h.proper.concat ⟨?_, rfl⟩, ?_, ?_, ?_⟩
  · rw [h.accepted, List.take_length]
  · rw [if_pos haccepted, List.countP_append, List.countP_eq_zero.mpr (by simpa using h.unflushed)]
    rfl
  · refine ⟨fun hok => ⟨haccepted, ?_⟩, fun ⟨_, hmem⟩ => ?_⟩
    · rw [hok]
      exact List.mem_concat_self
    · rcases List.mem_append.mp hmem with hmem | hmem
      · cases h.unflushed _ hmem
      · exact (WriterCall.flush.inj (List.mem_singleton.mp hmem)).symm
  · intro error herror
    exact ⟨calls, _, rfl, by rw [herror]; rfl, h.unfailing⟩

end Underway

/-- What was asked for and accepted is kept up by every write, and leads to what holds in the
end. -/
theorem progresses (writer : Writer) (image : List UInt8) :
    writer.sink.Progresses image (writer.Underway image) (writer.Delivered image) where
  write n calls hlt h := by
    show AfterWrite _ _ _ (writer.answer calls (unaccepted image n), _)
    cases hanswer : writer.answer calls (unaccepted image n) with
    | error error => exact h.refused hlt hanswer rfl
    | ok taken =>
        cases taken with
        | zero => exact h.refused hlt hanswer rfl
        | succ taken => exact ⟨le_of_answer hanswer, h.advance hlt hanswer⟩
  flush calls h := h.flushed

end Writer

/-- **What is written is a part of the image from its first byte on, and success means all of it.**
Whatever a writer answers, it is offered the rest of the chunk that the first byte lies in that it
has not accepted, and it is flushed once if it has accepted all bytes, and else never. Writing
succeeds just if all bytes were accepted and the flush succeeded. Otherwise it fails with the
failure of the last call, under the name of the file. -/
theorem writeBinary_delivers (writer : Writer) (binary : Binary) (output : FileName) :
    ∃ result calls,
      (writeBinary writer.sink binary output).run.run [] =
        (result.mapError (.output output), calls) ∧
      writer.Delivered binary.image.toList result calls := by
  exact ⟨_, _, run_attempt _ _ _, (writer.progresses binary.image.toList).writeImage .start⟩

end ArmAssembly
