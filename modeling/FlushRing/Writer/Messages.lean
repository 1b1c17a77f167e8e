import FlushRing.Lines
import FlushRing.Writer.ReadBack

open Extents Lines Submission Transition

namespace FlushRing

/-- `{:0width}`. -/
def pad (width n : Nat) : List Char := (Nat.toDigits 10 n).leftpad width '0'

/-- A message without its line break. -/
def text (thread_id message_num : Nat) : String :=
  String.ofList ("[".toList ++ pad 2 thread_id ++ "] [Thread-".toList ++ Nat.toDigits 10 thread_id ++
    "] Message ".toList ++ pad 6 message_num)

def message (thread_id message_num : Nat) : String := text thread_id message_num ++ "\n"

def as_bytes (s : String) : List UInt8 := s.toByteArray.data.toList

/-- What `Lines::next` does with what `read_line` has read. -/
def chomp (buf : String) : String :=
  if buf.toList.getLast? = some '\n' then
    let buf := buf.toList.dropLast
    String.ofList (if buf.getLast? = some '\r' then buf.dropLast else buf)
  else buf

def line (piece : List UInt8) : Option String := (String.fromUTF8? ⟨piece.toArray⟩).map chomp

/-- The lines of a file `BufRead::lines` returns; one that is no UTF-8 is an error, which `main` passes over. -/
def lines (content : List UInt8) : List String := (pieces 10 content).filterMap line

/-- A character of one byte that is no control character. -/
def printable (c : Char) : Bool := 32 ≤ c.toNat && c.toNat < 127

theorem printable_iff {c : Char} : printable c = true ↔ 32 ≤ c.toNat ∧ c.toNat < 127 := by
  simp [printable]

theorem printable_digits {n : Nat} {c : Char} (hc : c ∈ Nat.toDigits 10 n) : printable c = true := by
  have hdigit := Nat.isDigit_of_mem_toDigits (by decide) (by decide) hc
  rw [Char.isDigit, Bool.and_eq_true, decide_eq_true_eq, decide_eq_true_eq] at hdigit
  obtain ⟨hlow, hhigh⟩ := hdigit
  rw [ge_iff_le, UInt32.le_iff_toNat_le] at hlow
  rw [UInt32.le_iff_toNat_le] at hhigh
  have hval : c.toNat = c.val.toNat := rfl
  rw [printable_iff]
  change 48 ≤ c.val.toNat at hlow
  change c.val.toNat ≤ 57 at hhigh
  omega

theorem printable_pad {width n : Nat} {c : Char} (hc : c ∈ pad width n) : printable c = true := by
  rw [pad, List.leftpad, List.mem_append] at hc
  obtain hc | hc := hc
  · rw [List.eq_of_mem_replicate hc]
    decide
  · exact printable_digits hc

/-- A message is printable. -/
theorem printable_text (thread_id message_num : Nat) :
    ∀ c ∈ (text thread_id message_num).toList, printable c = true := by
  intro c hc
  rw [text, String.toList_ofList] at hc
  simp only [List.mem_append] at hc
  obtain ((((hc | hc) | hc) | hc) | hc) | hc := hc
  · exact List.all_eq_true.mp (by decide) c hc
  · exact printable_pad hc
  · exact List.all_eq_true.mp (by decide) c hc
  · exact printable_digits hc
  · exact List.all_eq_true.mp (by decide) c hc
  · exact printable_pad hc

/-- Its byte is no line break. -/
theorem printable_bytes {c : Char} (h : printable c = true) : 10 ∉ String.utf8EncodeChar c := by
  obtain ⟨hlow, hhigh⟩ := printable_iff.mp h
  have hsize : c.utf8Size = 1 := by
    rw [Char.utf8Size_eq_one_iff, UInt32.le_iff_toNat_le]
    have hval : c.toNat = c.val.toNat := rfl
    have hmax : (127 : UInt32).toNat = 127 := rfl
    omega
  rw [String.utf8EncodeChar_eq_singleton hsize, List.mem_singleton]
  intro hten
  have hbyte := congrArg UInt8.toNat hten
  rw [UInt32.toNat_toUInt8] at hbyte
  have hval : c.toNat = c.val.toNat := rfl
  have hten' : (10 : UInt8).toNat = 10 := rfl
  omega

theorem as_bytes_append (s s' : String) : as_bytes (s ++ s') = as_bytes s ++ as_bytes s' := by
  simp [as_bytes]

theorem as_bytes_toList (s : String) : as_bytes s = s.toList.flatMap String.utf8EncodeChar := by
  rw [as_bytes, ← String.utf8Encode_toList]
  simp [List.utf8Encode]

/-- Printable text has no line break. -/
theorem newline_not_mem {s : String} (h : ∀ c ∈ s.toList, printable c = true) : 10 ∉ as_bytes s := by
  rw [as_bytes_toList, List.mem_flatMap]
  rintro ⟨c, hc, hten⟩
  exact printable_bytes (h c hc) hten

/-- The bytes of a text read back as that text. -/
theorem fromUTF8?_as_bytes (s : String) : String.fromUTF8? ⟨(as_bytes s).toArray⟩ = some s := by
  have hbytes : (⟨(as_bytes s).toArray⟩ : ByteArray) = s.toByteArray := by
    rw [as_bytes, Array.toArray_toList]
  rw [hbytes, String.fromUTF8?, dif_pos s.isValidUTF8]
  rfl

/-- A line is read without its line break. -/
theorem line_as_bytes {s : String} (h : ∀ c ∈ s.toList, printable c = true) :
    line (as_bytes (s ++ "\n")) = some s := by
  have hlist : (s ++ "\n").toList = s.toList ++ ['\n'] := by
    rw [String.toList_append]
    rfl
  have hlast : s.toList.getLast? ≠ some '\r' := by
    intro hreturn
    have hprintable := h _ (List.mem_of_getLast? hreturn)
    cases hprintable
  rw [line, fromUTF8?_as_bytes, Option.map_some, chomp, hlist, List.getLast?_concat, if_pos rfl,
    List.dropLast_concat]
  dsimp only
  rw [if_neg hlast, String.ofList_toList]

/-- So is a message. -/
theorem line_message (thread_id message_num : Nat) :
    line (as_bytes (message thread_id message_num)) = some (text thread_id message_num) := by
  rw [message]
  exact line_as_bytes (printable_text thread_id message_num)

/-- A message is its text and a line break. -/
theorem as_bytes_message (thread_id message_num : Nat) :
    as_bytes (message thread_id message_num) = as_bytes (text thread_id message_num) ++ [10] := by
  have hbreak : as_bytes "\n" = [10] := by decide +kernel
  rw [message, as_bytes_append, hbreak]

variable {T : Type} [DecidableEq T]

namespace Writers

/-- What `main` logs of the file in the end. -/
def logged (s : Writers T) : List String := lines (load s.file { start := 0, len := s.file_len })

/-- The messages of one thread, without their line breaks. -/
def texts (per_thread thread_id : Nat) : List String :=
  (List.range per_thread).map fun i => text thread_id (i + per_thread * thread_id)

section Logged
variable {s : Writers T} {handles : List T}

/-- Threads that finished and have appended nothing empty have all their payloads in batches. -/
theorem Accounts.payloads (h : s.Accounts) (hnodup : handles.Nodup) (hall : ∀ t, t ∈ handles)
    (hfinished : ∀ t, s.stage t = .finished) (hnonempty : ∀ t, ∀ payload ∈ s.appended t, payload.toList ≠ []) :
    (s.batches.flatMap Batch.payloads).Perm (handles.flatMap s.appended) ∧
      ∀ t, (s.appended t).Sublist (s.batches.flatMap Batch.payloads) := by
  have hmine (t : T) : s.appended t = (s.mine t).flatMap Batch.payloads := by
    obtain ⟨_, horder, hempty⟩ := h.finished (hfinished t)
    have hfilling : s.filling t = [] := by
      apply List.eq_nil_iff_forall_not_mem.mpr
      intro payload hmem
      refine hnonempty t payload ?_ (List.flatMap_eq_nil_iff.mp hempty payload hmem)
      rw [horder]
      exact List.mem_append_right _ hmem
    rw [horder, hfilling, List.append_nil]
  constructor
  · have hpartition := flatMap_filter_perm Batch.writer hnodup s.batches
    rw [List.filter_eq_self.mpr fun b _ => decide_eq_true (hall b.writer)] at hpartition
    have hpayloads := (hpartition.flatMap_right Batch.payloads).symm
    rw [List.flatMap_assoc] at hpayloads
    simp only [funext hmine]
    exact hpayloads
  · intro t
    rw [hmine]
    exact List.filter_sublist.flatMap _

/-- When all threads of a sane run have finished and no write came short, `main` logs each message of each thread
once, those of one thread in the order it has appended them. -/
theorem logs_every_message (h : Reaches step sane init s) (hnodup : handles.Nodup) (hall : ∀ t, t ∈ handles)
    (hfinished : ∀ t, s.stage t = .finished) (hfull : ∀ t, ∀ p ∈ (s.writer t).ring.log, full p)
    {per_thread : Nat} {thread_id : T → Nat}
    (hmessages : ∀ t, (s.appended t).map Slice.toList =
      (List.range per_thread).map fun i => as_bytes (message (thread_id t) (i + per_thread * thread_id t))) :
    s.logged.Perm (handles.flatMap fun t => texts per_thread (thread_id t)) ∧
      (∀ t, (texts per_thread (thread_id t)).Sublist s.logged) ∧
      s.logged.length = per_thread * handles.length := by
  obtain ⟨haccounts, _⟩ := Stored.reaches h
  obtain ⟨_, _, hcontent, _⟩ := reads_back h hnodup hall hfinished hfull
  -- each payload is a line of its own
  have hline (t : T) (payload : Slice) (hmem : payload ∈ s.appended t) :
      ∃ id num, payload.toList = as_bytes (text id num) ++ [10] := by
    have hbytes : payload.toList ∈ (s.appended t).map Slice.toList := List.mem_map_of_mem hmem
    rw [hmessages, List.mem_map] at hbytes
    obtain ⟨i, _, hbytes⟩ := hbytes
    rw [as_bytes_message] at hbytes
    exact ⟨thread_id t, i + per_thread * thread_id t, hbytes.symm⟩
  obtain ⟨hperm, hsublist⟩ := haccounts.payloads hnodup hall hfinished fun t payload hmem hnil => by
    obtain ⟨id, num, hbytes⟩ := hline t payload hmem
    rw [hnil] at hbytes
    exact List.append_ne_nil_of_right_ne_nil _ (List.cons_ne_nil _ _) hbytes.symm
  have hlogged : s.logged = ((s.batches.flatMap Batch.payloads).map Slice.toList).filterMap line := by
    have hflat : load s.file { start := 0, len := s.file_len } =
        ((s.batches.flatMap Batch.payloads).map Slice.toList).flatten := by
      rw [hcontent, ← List.flatMap_def, List.flatMap_assoc]
      rfl
    rw [logged, lines, hflat, pieces_flatten]
    intro piece hpiece
    obtain ⟨payload, hpayload, rfl⟩ := List.mem_map.mp hpiece
    obtain ⟨t, _, hmem⟩ := List.mem_flatMap.mp (hperm.mem_iff.mp hpayload)
    obtain ⟨id, num, hbytes⟩ := hline t payload hmem
    exact ⟨_, hbytes, newline_not_mem (printable_text id num)⟩
  have htexts (t : T) : ((s.appended t).map Slice.toList).filterMap line = texts per_thread (thread_id t) := by
    rw [hmessages, List.filterMap_map, texts]
    simp only [Function.comp_def, line_message, List.filterMap_eq_map']
  have hall_texts : s.logged.Perm (handles.flatMap fun t => texts per_thread (thread_id t)) := by
    have hlines := (hperm.map Slice.toList).filterMap line
    rw [← hlogged, List.map_flatMap, List.filterMap_flatMap] at hlines
    simp only [htexts] at hlines
    exact hlines
  refine ⟨hall_texts, fun t => ?_, ?_⟩
  · rw [hlogged, ← htexts]
    exact ((hsublist t).map _).filterMap _
  · rw [hall_texts.length_eq, List.length_flatMap]
    simp [texts, Nat.mul_comm]

/-- `message.as_bytes()`. -/
def payload (thread_id message_num : Nat) : Slice :=
  let bytes := as_bytes (message thread_id message_num)
  { len := BitVec.ofNat 64 bytes.length, byte := fun i => bytes.getD i 0 }

/-- Two threads append two messages each, in turns, and flush in between. -/
def appendsMessages : List (Action Bool) :=
  [.append true (payload 1 2) true, .append false (payload 0 0) true, .append true (payload 1 3) true,
    .flush false true, .append false (payload 0 1) true, .finish true true, .finish false true,
    .serve false (.start 0), .serve true (.start 0), .serve false (.start 1), .serve false (.complete 1 31),
    .serve false (.complete 0 31), .serve true (.complete 0 62), .resume false true, .resume true true]

theorem logs_every_message_appendsMessages :
    ∃ s : Writers Bool, Reaches step sane init s ∧ s.logged.length = 4 ∧
      s.logged.Perm ([false, true].flatMap fun t => texts 2 t.toNat) := by
  have hrun : (exec step sane appendsMessages init).any (fun s => decide
      ((∀ t, (s.stage t).ended = true) ∧ (∀ t, ∀ p ∈ (s.writer t).ring.log, full p) ∧
        ∀ t, (s.appended t).map Slice.toList =
          (List.range 2).map fun i => as_bytes (message t.toNat (i + 2 * t.toNat)))) = true := by
    decide +kernel
  obtain ⟨s, hreach, hcheck⟩ := exists_of_exec hrun
  obtain ⟨hended, hfull, hmessages⟩ := of_decide_eq_true hcheck
  have hnodup : [false, true].Nodup := by decide
  obtain ⟨hperm, _, hlength⟩ := logs_every_message hreach hnodup (by decide)
    (fun t => ended_iff.mp (hended t)) hfull hmessages
  exact ⟨s, hreach, hlength, hperm⟩

end Logged

end Writers

end FlushRing
