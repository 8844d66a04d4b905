import Znu.Sched.Readers
import Znu.Lib.Queue

/-! # Lines of a terminal

With `ICANON` a terminal collects a line, which can be edited, and moves it to the buffer of
readers when it ends. A line that is longer than 4095 bytes is thrown away as it stands and
what follows is taken for a new one, and a line that does not fit into the buffer is cut off.
Otherwise readers obtain whole lines only.
-/

namespace Znu.Sched

open Lib Function List State Tty

/-! ## Nonblocking reads -/

namespace State

/-- `tty_read` with `nonblock`, for a count that is not zero yet. -/
def ttyRead (t : TtyId) : Nat → State → List UInt8 × State
  | 0, s => ([], s)
  | n + 1, s =>
    if s.ttyBufEmpty t then ([], s) else
    let c := (s.ttys t).cookedBuf (s.ttys t).cookedTail
    let s := s.ttyGet t
    if (s.ttys t).canonical ∧ c = 10 then ([c], s) else
    let rest := ttyRead t n s
    (c :: rest.1, rest.2)

lemma ttyBufSize_pos : 0 < ttyBufSize := by decide

end State

variable {c : UInt8}

namespace Tty

def contents (y : Tty) : List UInt8 :=
  Queue.contents ttyBufSize y.cookedBuf y.cookedHead y.cookedTail

def line (y : Tty) : List UInt8 := (range y.lineLen).map y.lineBuf

/-- The indices are inside the buffers, and `ICANON` is set. -/
structure Valid (y : Tty) : Prop where
  head : y.cookedHead < ttyBufSize
  tail : y.cookedTail < ttyBufSize
  line : y.lineLen < ttyBufSize
  canonical : y.canonical = true

variable {y : Tty}

lemma full_iff (head : y.cookedHead < ttyBufSize) (tail : y.cookedTail < ttyBufSize) :
    (y.cookedHead + 1) % ttyBufSize = y.cookedTail ↔ y.contents.length = 4095 := by
  rw [Queue.full_iff head tail, contents, Queue.length_contents, ttyBufSize]
  omega

lemma length_contents_le (valid : y.Valid) : y.contents.length ≤ 4095 := by
  have bound := Queue.count_lt valid.head y.cookedTail
  rw [contents, Queue.length_contents]
  rw [ttyBufSize] at bound ⊢
  omega

lemma put_spec (valid : y.Valid) (space : (y.cookedHead + 1) % ttyBufSize ≠ y.cookedTail)
    (c : UInt8) :
    (y.put c).Valid ∧ (y.put c).lineBuf = y.lineBuf ∧ (y.put c).contents = y.contents ++ [c] := by
  rw [put, if_neg space]
  refine ⟨⟨?_, valid.tail, valid.line, valid.canonical⟩, rfl, ?_⟩
  · exact Nat.mod_lt _ ttyBufSize_pos
  · exact Queue.contents_push valid.head valid.tail space c

/-- The loop moves as much of the line as there is space for. -/
lemma putLine_spec (valid : y.Valid) (n i : Nat) :
    (y.putLine n i).Valid ∧
      (y.putLine n i).contents = y.contents ++
        ((range n).map fun k => y.lineBuf (i + k)).take (4095 - y.contents.length) := by
  induction n generalizing y i with
  | zero => exact ⟨valid, by simp [putLine]⟩
  | succ n ih =>
    rw [putLine]
    have full_iff := full_iff valid.head valid.tail
    by_cases full : (y.cookedHead + 1) % ttyBufSize = y.cookedTail
    · have length := full_iff.mp full
      rw [if_pos full, length]
      exact ⟨valid, by simp⟩
    have bound := length_contents_le valid
    obtain ⟨valid', lines, pushed⟩ := put_spec valid full (y.lineBuf i)
    obtain ⟨valid'', moved⟩ := ih valid' (i + 1)
    rw [if_neg full]
    refine ⟨valid'', moved.trans ?_⟩
    have left : 4095 - y.contents.length = 4095 - (y.contents ++ [y.lineBuf i]).length + 1 := by
      rw [length_append, length_singleton]
      omega
    have shift : ∀ k, y.lineBuf (i + 1 + k) = y.lineBuf (i + (k + 1)) := by
      intro k
      congr 1
      omega
    rw [pushed, lines, left, range_succ_eq_map, map_cons, map_map, take_succ_cons, append_assoc]
    simp only [shift]
    rfl

/-! ## One character -/

/-- `tty_input_char` with `ICANON`, as far as the terminal is concerned. -/
def input (y : Tty) (c : UInt8) : Tty :=
  if c = 127 then { y with lineLen := y.lineLen - 1 }
  else if ttyBufSize - 1 ≤ y.lineLen then { y with lineLen := 0 }
  else
    let y := { y with lineBuf := Function.update y.lineBuf y.lineLen c, lineLen := y.lineLen + 1 }
    if c = 10 then { y.putLine y.lineLen 0 with lineLen := 0 } else y

lemma length_line (y : Tty) : y.line.length = y.lineLen := by simp [line]

lemma line_store (c : UInt8) :
    ({ y with lineBuf := update y.lineBuf y.lineLen c, lineLen := y.lineLen + 1 } : Tty).line =
      y.line ++ [c] := by
  simp only [line]
  rw [range_succ, map_append, map_singleton, update_self]
  refine congrArg (· ++ [c]) (map_congr_left fun i member => ?_)
  exact update_of_ne (Nat.ne_of_lt (mem_range.mp member)) ..

lemma input_erase (valid : y.Valid) :
    (y.input 127).Valid ∧ (y.input 127).line = y.line.dropLast ∧ (y.input 127).contents = y.contents := by
  rw [input, if_pos rfl]
  refine ⟨⟨valid.head, valid.tail, ?_, valid.canonical⟩, ?_, rfl⟩
  · exact Nat.lt_of_le_of_lt (Nat.sub_le ..) valid.line
  · simp only [line]
    rw [dropLast_eq_take, length_map, length_range, ← map_take, take_range, Nat.min_eq_left (Nat.sub_le ..)]

section

variable (valid : y.Valid)

include valid

lemma input_overflow (other : c ≠ 127) (long : y.lineLen = 4095) :
    (y.input c).Valid ∧ (y.input c).line = [] ∧ (y.input c).contents = y.contents := by
  have reached : ttyBufSize - 1 ≤ y.lineLen := by
    rw [long]
    decide
  rw [input, if_neg other, if_pos reached]
  exact ⟨⟨valid.head, valid.tail, ttyBufSize_pos, valid.canonical⟩, rfl, rfl⟩

lemma Valid.room (short : y.lineLen ≠ 4095) : ¬ ttyBufSize - 1 ≤ y.lineLen := by
  have inside := valid.line
  rw [ttyBufSize] at inside ⊢
  omega

lemma Valid.store (short : y.lineLen ≠ 4095) (c : UInt8) :
    ({ y with lineBuf := update y.lineBuf y.lineLen c, lineLen := y.lineLen + 1 } : Tty).Valid := by
  have inside := valid.line
  refine ⟨valid.head, valid.tail, ?_, valid.canonical⟩
  rw [ttyBufSize] at inside ⊢
  exact Nat.succ_lt_succ (by omega)

lemma input_add (other : c ≠ 127) (goes_on : c ≠ 10) (short : y.lineLen ≠ 4095) :
    (y.input c).Valid ∧ (y.input c).line = y.line ++ [c] ∧ (y.input c).contents = y.contents := by
  rw [input, if_neg other, if_neg (valid.room short)]
  rw [if_neg goes_on]
  exact ⟨valid.store short c, line_store c, rfl⟩

lemma input_newline (short : y.lineLen ≠ 4095) :
    (y.input 10).Valid ∧ (y.input 10).line = [] ∧
      (y.input 10).contents = y.contents ++ (y.line ++ [10]).take (4095 - y.contents.length) := by
  obtain ⟨valid', moved⟩ := putLine_spec (valid.store short 10) (y.lineLen + 1) 0
  rw [input, if_neg (by decide), if_neg (valid.room short)]
  refine ⟨⟨valid'.head, valid'.tail, ttyBufSize_pos, valid'.canonical⟩, rfl, moved.trans ?_⟩
  have whole := @line_store y 10
  rw [line] at whole
  simp only [Nat.zero_add]
  rw [whole]
  rfl

end

end Tty

variable {s : State} {t : TtyId}

namespace State

/-- The reader that is remembered does not matter for the lines. -/
lemma ttyInputChar_tty (valid : (s.ttys t).Valid) (c : UInt8) :
    ∃ reader, (s.ttyInputChar t c).ttys t =
      { (s.ttys t).input ((s.ttys t).translate c) with waitingReader := reader } := by
  unfold ttyInputChar input
  dsimp only
  rw [valid.canonical]
  simp only [Bool.not_true, Bool.false_eq_true, if_false]
  split
  · exact ⟨_, update_self ..⟩
  split
  · exact ⟨_, update_self ..⟩
  split
  · refine ⟨none, ?_⟩
    rw [ttyWakeReader_ttys, update_self, modifyTty_modifyTty]
    simp only [modifyTty, update_self, comp_apply]
  · exact ⟨_, update_self ..⟩

/-- A read takes bytes from the front, and at least one if there is any. -/
lemma ttyRead_spec (head : (s.ttys t).cookedHead < ttyBufSize)
    (tail : (s.ttys t).cookedTail < ttyBufSize) (n : Nat) :
    ∃ next < ttyBufSize, (s.ttyRead t n).2.ttys t = { s.ttys t with cookedTail := next } ∧
      (s.ttys t).contents = (s.ttyRead t n).1 ++ ((s.ttyRead t n).2.ttys t).contents ∧
      (n ≠ 0 → (s.ttyRead t n).1.head? = (s.ttys t).contents.head?) := by
  induction n generalizing s with
  | zero => exact ⟨_, tail, rfl, rfl, fun nonzero => absurd rfl nonzero⟩
  | succ n ih =>
    rw [ttyRead]
    by_cases empty : s.ttyBufEmpty t
    · have none : (s.ttys t).contents = [] := by
        rw [← length_eq_zero_iff, contents, Queue.length_contents]
        exact (Queue.count_eq_zero head tail).mpr empty
      rw [if_pos empty]
      refine ⟨_, tail, rfl, rfl, fun _ => ?_⟩
      rw [none]
    have got : (s.ttyGet t).ttys t = { s.ttys t with
        cookedTail := ((s.ttys t).cookedTail + 1) % ttyBufSize } := update_self ..
    have inside := Nat.mod_lt ((s.ttys t).cookedTail + 1) ttyBufSize_pos
    have popped : (s.ttys t).contents =
        (s.ttys t).cookedBuf (s.ttys t).cookedTail :: ((s.ttyGet t).ttys t).contents := by
      rw [got]
      exact Queue.contents_pop head tail empty
    rw [if_neg empty]
    dsimp only
    split
    · exact ⟨_, inside, got, popped, fun _ => by rw [popped]; rfl⟩
    obtain ⟨next, below, same, rest, -⟩ := ih (s := s.ttyGet t) (by rwa [got]) (by rwa [got])
    rw [got] at same
    refine ⟨next, below, same, ?_, fun _ => by rw [popped]; rfl⟩
    rw [popped, rest, cons_append]

end State

/-! ## Runs -/

/-- What can happen to a terminal that stays in canonical mode. -/
inductive LineOp where
  | input (c : UInt8)
  /-- a nonblocking read -/
  | read (count : Nat)
  | set (cIflag cLflag : BitVec 32)

open LineOp

def LineOp.Canonical : LineOp → Prop
  | .set _ cLflag => cLflag &&& Tty.lIcanon ≠ 0
  | _ => True

/-- The bytes that are read, and the state afterwards. -/
def State.lineOp (t : TtyId) (s : State) : LineOp → List UInt8 × State
  | .input c => ([], s.ttyInputChar t c)
  | .read count => s.ttyRead t count
  | .set cIflag cLflag =>
    ([], s.modifyTty t fun y => { y with cIflag := cIflag, cLflag := cLflag })

/-- What has been typed and read: the lines that are complete, as edited, the line that is not,
    and the bytes readers have obtained. -/
structure Typed where
  lines : List (List UInt8)
  edited : List UInt8
  got : List UInt8

/-- An editor that never runs out of space. -/
def Typed.type (h : Typed) (c : UInt8) : Typed :=
  if c = 127 then { h with edited := h.edited.dropLast }
  else if c = 10 then { h with lines := h.lines ++ [h.edited ++ [10]], edited := [] }
  else { h with edited := h.edited ++ [c] }

def lineStep (t : TtyId) (x : State × Typed) (op : LineOp) : State × Typed :=
  ((x.1.lineOp t op).2,
    match op with
    | .input c => x.2.type ((x.1.ttys t).translate c)
    | _ => { x.2 with got := x.2.got ++ (x.1.lineOp t op).1 })

def afterLines (t : TtyId) (s : State) (ops : List LineOp) : State × Typed :=
  ops.foldl (lineStep t) (s, ⟨[], [], []⟩)

/-- What has been read, with what can be read, is whole lines in their order, and the line that
    is not complete is all there. -/
structure Whole (t : TtyId) (x : State × Typed) : Prop where
  line : (x.1.ttys t).line = x.2.edited
  lines : ∃ delivered : List (List UInt8), delivered.Sublist x.2.lines ∧
    x.2.got ++ (x.1.ttys t).contents = delivered.flatten

/-- No character is added to a line of 4095 bytes, and a line that ends fits into the buffer
    unless that is full. -/
def Fitting (t : TtyId) (s : State) : LineOp → Prop
  | .input c =>
    let y := s.ttys t
    let c := y.translate c
    (c ≠ 127 → c ≠ 10 → y.line.length ≠ 4095) ∧
      (c = 10 → y.line.length ≠ 4095 →
        y.contents.length = 4095 ∨ y.contents.length + y.line.length + 1 ≤ 4095)
  | _ => True

/-- As `tty_init` leaves it. -/
structure Fresh (y : Tty) : Prop where
  canonical : y.canonical = true
  inside : y.cookedHead < ttyBufSize
  empty : y.cookedTail = y.cookedHead
  line : y.lineLen = 0

/-- Lines end in their only newline. -/
structure Typed.Proper (h : Typed) : Prop where
  lines : ∀ l ∈ h.lines, l.getLast? = some 10
  edited : 10 ∉ h.edited

lemma Typed.Proper.type {h : Typed} (proper : h.Proper) (c : UInt8) : (h.type c).Proper := by
  unfold Typed.type
  split
  · exact ⟨proper.lines, fun member => proper.edited (mem_of_mem_dropLast member)⟩
  split
  · constructor
    · intro l member
      rcases mem_append.mp member with before | last
      · exact proper.lines l before
      · rw [mem_singleton.mp last]
        exact getLast?_concat
    · exact not_mem_nil
  rename_i other
  constructor
  · exact proper.lines
  · intro member
    rcases mem_append.mp member with before | last
    · exact proper.edited before
    · exact other (mem_singleton.mp last).symm

lemma getLast_flatten {lines : List (List UInt8)} (ends : ∀ l ∈ lines, l.getLast? = some 10)
    (nonempty : lines.flatten ≠ []) : lines.flatten.getLast? = some 10 := by
  induction lines using reverseRecOn with
  | nil => exact absurd rfl nonempty
  | append_singleton lines l _ =>
    have last := ends l (by simp)
    have inside : l ≠ [] := by
      rintro rfl
      cases last
    rw [flatten_append, flatten_singleton, getLast?_append_of_ne_nil _ inside, last]

variable {x : State × Typed}

section

variable {op : LineOp}

lemma lineStep_input (valid : (x.1.ttys t).Valid) (c : UInt8) :
    ((lineStep t x (.input c)).1.ttys t).line = ((x.1.ttys t).input ((x.1.ttys t).translate c)).line ∧
      ((lineStep t x (.input c)).1.ttys t).contents =
        ((x.1.ttys t).input ((x.1.ttys t).translate c)).contents := by
  obtain ⟨reader, same⟩ := ttyInputChar_tty valid c
  rw [lineStep, lineOp, same]
  exact ⟨rfl, rfl⟩

lemma lineStep_valid (valid : (x.1.ttys t).Valid) (canonical : op.Canonical) :
    ((lineStep t x op).1.ttys t).Valid := by
  cases op with
  | input c =>
    obtain ⟨reader, same⟩ := ttyInputChar_tty valid c
    have input : ((x.1.ttys t).input ((x.1.ttys t).translate c)).Valid := by
      generalize (x.1.ttys t).translate c = c
      by_cases erase : c = 127
      · rw [erase]
        exact (input_erase valid).1
      by_cases long : (x.1.ttys t).lineLen = 4095
      · exact (input_overflow valid erase long).1
      by_cases newline : c = 10
      · rw [newline]
        exact (input_newline valid long).1
      · exact (input_add valid erase newline long).1
    rw [lineStep, lineOp, same]
    exact ⟨input.head, input.tail, input.line, input.canonical⟩
  | read count =>
    obtain ⟨next, below, same, -⟩ := ttyRead_spec valid.head valid.tail count
    change ((x.1.ttyRead t count).2.ttys t).Valid
    rw [same]
    exact ⟨valid.head, below, valid.line, valid.canonical⟩
  | set cIflag cLflag =>
    have same : ((lineStep t x (.set cIflag cLflag)).1.ttys t) =
        { x.1.ttys t with cIflag := cIflag, cLflag := cLflag } := update_self ..
    rw [same]
    exact ⟨valid.head, valid.tail, valid.line, by simpa [Canonical, Tty.canonical] using canonical⟩

lemma lineStep_proper (proper : x.2.Proper) : (lineStep t x op).2.Proper := by
  cases op with
  | input c => exact proper.type _
  | read | set => exact ⟨proper.lines, proper.edited⟩

section

variable (valid : (x.1.ttys t).Valid) (proper : x.2.Proper) (whole : Whole t x)

include valid proper whole

lemma newline_whole_iff :
    (∃ delivered : List (List UInt8), delivered.Sublist (x.2.lines ++ [x.2.edited ++ [10]]) ∧
        x.2.got ++ ((x.1.ttys t).contents ++
          ((x.1.ttys t).line ++ [10]).take (4095 - (x.1.ttys t).contents.length)) = delivered.flatten) ↔
      ((x.1.ttys t).contents.length = 4095 ∨
        (x.1.ttys t).contents.length + (x.1.ttys t).line.length + 1 ≤ 4095) := by
  have bound := length_contents_le valid
  obtain ⟨delivered, sub, read⟩ := whole.lines
  rw [whole.line]
  constructor
  · rintro ⟨later, inside, moved⟩
    by_contra cut
    push Not at cut
    have part : (x.2.edited ++ [10]).take (4095 - (x.1.ttys t).contents.length) =
        x.2.edited.take (4095 - (x.1.ttys t).contents.length) :=
      take_append_of_le_length (by omega)
    have moves : x.2.edited.take (4095 - (x.1.ttys t).contents.length) ≠ [] := by
      intro none
      have length := congrArg length none
      rw [length_take, length_nil] at length
      omega
    rw [part, ← append_assoc] at moved
    have newlines : ∀ l ∈ later, l.getLast? = some 10 := by
      intro l member
      rcases mem_append.mp (inside.subset member) with before | last
      · exact proper.lines l before
      · rw [mem_singleton.mp last]
        exact getLast?_concat
    have ends := getLast_flatten newlines (by rw [← moved]; simp [moves])
    rw [← moved, getLast?_append_of_ne_nil _ moves] at ends
    exact proper.edited (mem_of_mem_take (mem_of_getLast? ends))
  · rintro (full | fits)
    · refine ⟨delivered, sub.trans (sublist_append_left ..), ?_⟩
      rw [full, Nat.sub_self, take_zero, append_nil, read]
    · refine ⟨delivered ++ [x.2.edited ++ [10]], sub.append (.refl _), ?_⟩
      rw [take_of_length_le (by simp; omega), ← append_assoc, read, flatten_append, flatten_singleton]

/-- A character that is added, erases one or ends the line. -/
lemma input_whole_iff (c : UInt8) :
    (((x.1.ttys t).input c).line = (x.2.type c).edited ∧
        ∃ delivered : List (List UInt8), delivered.Sublist (x.2.type c).lines ∧
          (x.2.type c).got ++ ((x.1.ttys t).input c).contents = delivered.flatten) ↔
      (c ≠ 127 → c ≠ 10 → (x.1.ttys t).line.length ≠ 4095) ∧
        (c = 10 → (x.1.ttys t).line.length ≠ 4095 → (x.1.ttys t).contents.length = 4095 ∨
          (x.1.ttys t).contents.length + (x.1.ttys t).line.length + 1 ≤ 4095) := by
  have length := (x.1.ttys t).length_line
  obtain ⟨delivered, sub, read⟩ := whole.lines
  by_cases erase : c = 127
  · subst erase
    obtain ⟨-, line, contents⟩ := input_erase valid
    have typed : x.2.type 127 = { x.2 with edited := x.2.edited.dropLast } := if_pos rfl
    refine iff_of_true ⟨?_, ?_⟩ ⟨fun other => absurd rfl other, fun newline => by cases newline⟩
    · rw [line, typed, whole.line]
    · rw [contents, typed]
      exact ⟨delivered, sub, read⟩
  by_cases newline : c = 10
  · subst newline
    have typed : x.2.type 10 = { x.2 with lines := x.2.lines ++ [x.2.edited ++ [10]], edited := [] } := rfl
    by_cases long : (x.1.ttys t).line.length = 4095
    · obtain ⟨-, line, contents⟩ := input_overflow valid erase (length.symm.trans long)
      refine iff_of_true ⟨line, ?_⟩ ⟨fun _ other => absurd rfl other, fun _ short => absurd long short⟩
      rw [contents]
      exact ⟨delivered, sub.trans (sublist_append_left ..), read⟩
    obtain ⟨-, line, contents⟩ := input_newline valid fun full => long (length.trans full)
    rw [line, contents]
    have moved := newline_whole_iff valid proper whole
    constructor
    · rintro ⟨-, lines⟩
      exact ⟨fun _ other => absurd rfl other, fun _ _ => moved.mp lines⟩
    · rintro ⟨-, fits⟩
      exact ⟨rfl, moved.mpr (fits rfl long)⟩
  · have typed : x.2.type c = { x.2 with edited := x.2.edited ++ [c] } := by
      rw [Typed.type, if_neg erase, if_neg newline]
    rw [typed]
    by_cases long : (x.1.ttys t).line.length = 4095
    · obtain ⟨-, line, -⟩ := input_overflow valid erase (length.symm.trans long)
      refine iff_of_false ?_ fun fits => fits.1 erase newline long
      rintro ⟨kept, -⟩
      rw [line] at kept
      simp at kept
    · obtain ⟨-, line, contents⟩ :=
        input_add valid erase newline fun full => long (length.trans full)
      refine iff_of_true ⟨?_, ?_⟩ ⟨fun _ _ => long, fun other => absurd other newline⟩
      · rw [line, whole.line]
      · rw [contents]
        exact ⟨delivered, sub, read⟩

/-- A step keeps lines whole exactly if it is fitting. -/
lemma lineStep_whole_iff : Whole t (lineStep t x op) ↔ Fitting t x.1 op := by
  cases op with
  | input c =>
    obtain ⟨line, contents⟩ := lineStep_input valid c
    refine Iff.trans ?_ (input_whole_iff valid proper whole ((x.1.ttys t).translate c))
    rw [← line, ← contents]
    exact ⟨fun whole => ⟨whole.line, whole.lines⟩, fun both => ⟨both.1, both.2⟩⟩
  | read count =>
    obtain ⟨next, -, same, taken, -⟩ := ttyRead_spec valid.head valid.tail count
    obtain ⟨delivered, sub, read⟩ := whole.lines
    refine iff_of_true ⟨(congrArg line same).trans whole.line, delivered, sub, ?_⟩ trivial
    rw [taken, ← append_assoc] at read
    exact read
  | set cIflag cLflag =>
    have same : ((lineStep t x (.set cIflag cLflag)).1.ttys t) =
        { x.1.ttys t with cIflag := cIflag, cLflag := cLflag } := update_self ..
    obtain ⟨delivered, sub, read⟩ := whole.lines
    refine iff_of_true ⟨?_, delivered, sub, ?_⟩ trivial
    · rw [same]
      exact whole.line
    · rw [same, ← read]
      exact congrArg (· ++ _) (append_nil _)

end

end

section

lemma afterLines_concat (ops : List LineOp) (op : LineOp) :
    afterLines t s (ops ++ [op]) = lineStep t (afterLines t s ops) op := by
  rw [afterLines, foldl_append]
  rfl

lemma Fresh.contents {y : Tty} (fresh : Fresh y) : y.contents = [] := by
  rw [← length_eq_zero_iff, Tty.contents, Queue.length_contents, fresh.empty]
  exact (Queue.count_eq_zero fresh.inside fresh.inside).mpr rfl

lemma Fresh.valid {y : Tty} (fresh : Fresh y) : y.Valid where
  head := fresh.inside
  tail := by rw [fresh.empty]; exact fresh.inside
  line := by rw [fresh.line]; exact ttyBufSize_pos
  canonical := fresh.canonical

lemma afterLines_valid (fresh : Fresh (s.ttys t)) {ops : List LineOp}
    (canonical : ∀ op ∈ ops, op.Canonical) :
    ((afterLines t s ops).1.ttys t).Valid ∧ (afterLines t s ops).2.Proper := by
  induction ops using reverseRecOn with
  | nil => exact ⟨fresh.valid, ⟨fun l member => (by cases member), not_mem_nil⟩⟩
  | append_singleton ops op ih =>
    obtain ⟨valid, proper⟩ := ih fun op member => canonical op (mem_append_left _ member)
    rw [afterLines_concat]
    exact ⟨lineStep_valid valid (canonical op (by simp)), lineStep_proper proper⟩

lemma Fresh.whole (fresh : Fresh (s.ttys t)) : Whole t (afterLines t s []) := by
  constructor
  · rw [afterLines, foldl_nil, Tty.line, fresh.line]
    rfl
  · refine ⟨[], .slnil, ?_⟩
    rw [afterLines, foldl_nil, fresh.contents]
    rfl

end

/-- From a fresh terminal that stays in canonical mode, lines are whole in every state that is
    reached exactly if every step is fitting. -/
theorem lines_whole_iff (t : TtyId) (s : State) (fresh : Fresh (s.ttys t)) (ops : List LineOp)
    (canonical : ∀ op ∈ ops, op.Canonical) :
    (∀ before, before <+: ops → Whole t (afterLines t s before)) ↔
      ∀ before op, before ++ [op] <+: ops → Fitting t (afterLines t s before).1 op := by
  induction ops using reverseRecOn with
  | nil =>
    constructor
    · intro _ before op inside
      simp at inside
    · intro _ before inside
      rw [prefix_nil.mp inside]
      exact fresh.whole
  | append_singleton ops op ih =>
    have earlier : ∀ op ∈ ops, op.Canonical :=
      fun op member => canonical op (mem_append_left _ member)
    obtain ⟨valid, proper⟩ := afterLines_valid fresh earlier
    constructor
    · intro whole before next inside
      rcases prefix_concat_iff.mp inside with same | shorter
      · obtain ⟨rfl, rfl⟩ := append_singleton_inj.mp same
        have before_whole := whole before (prefix_append ..)
        have after_whole := whole (before ++ [next]) (prefix_refl _)
        rw [afterLines_concat] at after_whole
        exact (lineStep_whole_iff valid proper before_whole).mp after_whole
      · refine (ih earlier).mp (fun before inside => ?_) before next shorter
        exact whole before (inside.trans (prefix_append ..))
    · intro fitting
      have before_whole := (ih earlier).mpr fun before next inside =>
        fitting before next (inside.trans (prefix_append ..))
      intro before inside
      rcases prefix_concat_iff.mp inside with same | shorter
      · subst same
        rw [afterLines_concat]
        refine (lineStep_whole_iff valid proper (before_whole ops (prefix_refl _))).mpr ?_
        exact fitting ops op (prefix_refl _)
      · exact before_whole before shorter

/-- While few bytes are there, every step is fitting. -/
lemma fitting_of_few
    (few : (s.ttys t).lineLen + ((s.ttys t).contents).length < 4095) (op : LineOp) :
    Fitting t s op := by
  have length := (s.ttys t).length_line
  cases op with
  | input c =>
    constructor
    · intro _ _
      omega
    · intro _ _
      omega
  | read | set => trivial

lemma blank_fresh : Fresh (blank.ttys 0) := ⟨by decide, by decide, rfl, rfl⟩

def shortLine : List LineOp := [.input 97, .input 10, .read 5]

theorem short_line_whole : Whole 0 (afterLines 0 blank shortLine) := by
  refine (lines_whole_iff 0 blank blank_fresh shortLine ?_).mpr ?_ shortLine (prefix_refl _)
  · intro op member
    fin_cases member <;> trivial
  rintro before op ⟨rest, whole⟩
  apply fitting_of_few
  rcases before with _ | ⟨first, _ | ⟨second, _ | ⟨third, more⟩⟩⟩
  · decide +kernel
  · cases whole
    decide +kernel
  · cases whole
    decide +kernel
  · have length := congrArg length whole
    simp [shortLine] at length

/-- What is known of a terminal in canonical mode, and what has been typed. -/
structure Stands (t : TtyId) (x : State × Typed) (line contents : List UInt8) (h : Typed) : Prop where
  valid : (x.1.ttys t).Valid
  line : (x.1.ttys t).line = line
  contents : (x.1.ttys t).contents = contents
  typed : x.2 = h

section

variable {h : Typed} {line contents : List UInt8} (stands : Stands t x line contents h)

include stands

lemma Stands.lineLen : (x.1.ttys t).lineLen = line.length := by
  rw [← length_line, stands.line]

lemma Stands.input {line' contents' : List UInt8} (plain : c ≠ 13) (after : ((x.1.ttys t).input c).Valid ∧ ((x.1.ttys t).input c).line = line' ∧
      ((x.1.ttys t).input c).contents = contents') :
    Stands t (lineStep t x (.input c)) line' contents' (h.type c) := by
  have same : (x.1.ttys t).translate c = c := if_neg fun both => plain both.2
  obtain ⟨line, contents⟩ := lineStep_input stands.valid c
  rw [same] at line contents
  refine ⟨lineStep_valid stands.valid trivial, line.trans after.2.1, contents.trans after.2.2, ?_⟩
  rw [lineStep, ← stands.typed]
  rw [same]

lemma Stands.add (plain : c ≠ 13 ∧ c ≠ 127 ∧ c ≠ 10) (short : line.length ≠ 4095) :
    Stands t (lineStep t x (.input c)) (line ++ [c]) contents (h.type c) := by
  have added := input_add stands.valid plain.2.1 plain.2.2 (by rwa [stands.lineLen])
  rw [stands.line, stands.contents] at added
  exact stands.input plain.1 added

end

/-- A line of up to 4095 bytes. -/
lemma long_line_typed (n : Nat) (small : n ≤ 4095) :
    Stands 0 (afterLines 0 blank (replicate n (.input 97))) (replicate n 97) [] ⟨[], replicate n 97, []⟩ := by
  induction n with
  | zero => exact ⟨blank_fresh.valid, rfl, rfl, rfl⟩
  | succ n ih =>
    rw [replicate_succ', replicate_succ', afterLines_concat]
    exact (ih (by omega)).add (by decide) (by rw [length_replicate]; omega)

/-- One byte too many, and then the end of the line. -/
def overlongLine : List LineOp :=
  replicate 4095 (LineOp.input 97) ++ [LineOp.input 98] ++ [LineOp.input 99] ++
    [LineOp.input 10] ++ [LineOp.read 1]

/-- The reader obtains the last bytes of the line without its beginning. -/
theorem overlong_line_torn : ¬ ∃ delivered : List (List UInt8),
    delivered.Sublist (afterLines 0 blank overlongLine).2.lines ∧
      (afterLines 0 blank overlongLine).2.got <+: delivered.flatten := by
  have stands := long_line_typed 4095 (Nat.le_refl _)
  have length : (replicate 4095 (97 : UInt8)).length = 4095 := length_replicate
  obtain ⟨others, front⟩ : ∃ others, replicate 4095 (97 : UInt8) = 97 :: others :=
    ⟨replicate 4094 97, replicate_succ⟩
  rw [front] at stands length
  rw [overlongLine, afterLines_concat, afterLines_concat, afterLines_concat, afterLines_concat]
  generalize afterLines 0 blank (replicate 4095 (.input 97)) = x at *
  rw [← stands.lineLen] at length
  have emptied := stands.input (by decide) (input_overflow stands.valid (c := 98) (by decide) length)
  rw [stands.contents] at emptied
  generalize lineStep 0 x (.input 98) = x₁ at *
  have added := emptied.add (c := 99) (by decide) (by decide)
  generalize lineStep 0 x₁ (.input 99) = x₂ at *
  have short : (x₂.1.ttys 0).lineLen ≠ 4095 := by
    rw [added.lineLen]
    decide
  have moved := added.input (by decide) (input_newline added.valid short)
  rw [added.line, added.contents] at moved
  generalize lineStep 0 x₂ (.input 10) = x₃ at *
  have first : (x₃.1.ttyRead 0 1).1.head? = some 99 := by
    obtain ⟨_, -, -, -, first⟩ := ttyRead_spec moved.valid.head moved.valid.tail 1
    rw [first (by decide), moved.contents]
    rfl
  have step : (lineStep 0 x₃ (.read 1)).2 = { x₃.2 with got := x₃.2.got ++ (x₃.1.ttyRead 0 1).1 } := rfl
  rintro ⟨delivered, sub, rest, read⟩
  have typed : x₃.2 = ⟨[97 :: others ++ [98] ++ [99] ++ [10]], [], []⟩ := moved.typed
  rw [step, typed] at sub read
  dsimp only at read
  rw [nil_append] at read
  have head := congrArg head? read
  rw [head?_append, first] at head
  rcases sublist_cons_iff.mp sub with none | ⟨lines, same, none⟩
  · rw [sublist_nil.mp none] at head
    cases head
  · rw [same, sublist_nil.mp none] at head
    simp at head

end Znu.Sched
