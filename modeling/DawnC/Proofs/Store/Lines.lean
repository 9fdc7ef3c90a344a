import DawnC.Proofs.Path
import DawnC.Store.Lines

set_option autoImplicit false

namespace DawnC

variable {contents held rest line last : Bytes} {lines : List Bytes}

/-- The contents are the lines, each with a newline, and the rest of an unfinished last line. -/
structure LineLayout (contents : Bytes) (lines : List Bytes) (last : Bytes) : Prop where
  shape : contents = lines.flatMap (· ++ [newline]) ++ last
  plain : ∀ line ∈ lines, newline ∉ line
  tail : newline ∉ last

namespace LineLayout

theorem nil : LineLayout [] [] [] := ⟨rfl, by simp, by simp⟩

theorem cons (layout : LineLayout contents lines last) (plain : newline ∉ line) :
    LineLayout (line ++ newline :: contents) (line :: lines) last := by
  refine ⟨by simp [layout.shape], ?_, layout.tail⟩
  intro other member
  rcases List.mem_cons.mp member with rfl | later
  · exact plain
  · exact layout.plain other later

theorem prepend (layout : LineLayout contents lines last) (plain : newline ∉ held) :
    LineLayout (held ++ contents) [] (held ++ last) ∨
      ∃ first later, LineLayout (held ++ contents) ((held ++ first) :: later) last := by
  obtain ⟨shape, free, free'⟩ := layout
  cases lines with
  | nil =>
      refine Or.inl ⟨by simp [shape], by simp, ?_⟩
      rw [List.mem_append, not_or]
      exact ⟨plain, free'⟩
  | cons first later =>
      have before : newline ∉ held ++ first := by
        rw [List.mem_append, not_or]
        exact ⟨plain, free first List.mem_cons_self⟩
      refine Or.inr ⟨first, later, by simp [shape], ?_, free'⟩
      intro other member
      rcases List.mem_cons.mp member with rfl | member
      · exact before
      · exact free other (List.mem_cons_of_mem _ member)

theorem cut_eq (layout : LineLayout contents lines last) :
    Text.cut newline contents = lines ++ [last] := by
  obtain ⟨rfl, plain, free⟩ := layout
  induction lines with
  | nil => exact Text.cut_self free
  | cons line lines ih =>
      have later := ih fun other member => plain other (List.mem_cons_of_mem _ member)
      rw [List.flatMap_cons, List.append_assoc, List.append_assoc, List.singleton_append,
        Text.cut_append (plain line List.mem_cons_self), later, List.cons_append]

theorem rawLines_eq (layout : LineLayout contents lines last) :
    rawLines contents = lines ++ if last = [] then [] else [last] := by
  rw [rawLines, layout.cut_eq]
  by_cases empty : last = []
  · simp [empty]
  · simp [empty]

theorem lines?_eq (layout : LineLayout contents lines last) :
    lines? contents = if (∀ line ∈ lines, line.length ≤ lineLimit) ∧ last.length ≤ lineLimit then
      some (lines.map dropReturn ++ if last = [] then [] else [dropReturn last]) else none := by
  have fits : (rawLines contents).all (fun line => line.length ≤ lineLimit) = true ↔
      (∀ line ∈ lines, line.length ≤ lineLimit) ∧ last.length ≤ lineLimit := by
    rw [layout.rawLines_eq, List.all_append, Bool.and_eq_true, List.all_eq_true]
    by_cases empty : last = []
    · simp [empty]
    · simp [empty]
  rw [lines?]
  by_cases short : (∀ line ∈ lines, line.length ≤ lineLimit) ∧ last.length ≤ lineLimit
  · rw [if_pos (fits.mpr short), if_pos short, layout.rawLines_eq, List.map_append]
    by_cases empty : last = []
    · simp [empty]
    · simp [empty]
  · rw [if_neg (fun all => short (fits.mp all)), if_neg short]

theorem lines?_eq_none (layout : LineLayout contents lines last) :
    lines? contents = none ↔ (∃ line ∈ lines, lineLimit < line.length) ∨ lineLimit < last.length := by
  rw [layout.lines?_eq]
  simp only [ite_eq_right_iff, reduceCtorEq, imp_false, not_and_or, not_forall, Nat.not_le, exists_prop]

end LineLayout

theorem exists_lineLayout (contents : Bytes) : ∃ lines last, LineLayout contents lines last := by
  induction contents with
  | nil => exact ⟨[], [], .nil⟩
  | cons byte contents ih =>
      obtain ⟨lines, last, layout⟩ := ih
      by_cases ends : byte = newline
      · subst ends
        exact ⟨[] :: lines, last, layout.cons List.not_mem_nil⟩
      · rcases layout.prepend (show newline ∉ [byte] by simpa using Ne.symm ends) with
          whole | ⟨first, later, whole⟩
        · exact ⟨[], _, whole⟩
        · exact ⟨_, _, whole⟩

/-- The first line is read if it is short enough, and then the others. -/
theorem lines?_append (plain : newline ∉ line) (rest : Bytes) :
    lines? (line ++ newline :: rest) =
      if line.length ≤ lineLimit then (lines? rest).map (dropReturn line :: ·) else none := by
  obtain ⟨lines, last, layout⟩ := exists_lineLayout rest
  rw [(layout.cons plain).lines?_eq, layout.lines?_eq]
  by_cases short : line.length ≤ lineLimit
  · simp only [List.forall_mem_cons, short, true_and, if_true]
    split
    · rfl
    · rfl
  · simp only [List.forall_mem_cons, short, false_and, if_false]

theorem lines?_self (plain : newline ∉ line) (filled : line ≠ []) :
    lines? line = if line.length ≤ lineLimit then some [dropReturn line] else none := by
  have layout : LineLayout line [] line := ⟨by simp, by simp, plain⟩
  rw [layout.lines?_eq]
  simp [filled]

/-- Bytes without a newline that are too many for a line. -/
theorem lines?_long (plain : newline ∉ held) (long : lineLimit < held.length) (rest : Bytes) :
    lines? (held ++ rest) = none := by
  obtain ⟨lines, last, layout⟩ := exists_lineLayout rest
  rcases layout.prepend plain with whole | ⟨first, later, whole⟩
  · rw [whole.lines?_eq_none, List.length_append]
    exact Or.inr (by omega)
  · rw [whole.lines?_eq_none]
    refine Or.inl ⟨held ++ first, List.mem_cons_self, ?_⟩
    rw [List.length_append]
    omega

/-- A buffer of `size` bytes holds `held`, and `rest` is still to be read. A line that ends in the buffer
is taken out of it; if there is none and the buffer is full the line is too long; otherwise some more
bytes are read, as many as there is room for or fewer, or the end is found. -/
inductive Scans (size : Nat) : Bytes → Bytes → Option (List Bytes) → Prop where
  | line {line held rest : Bytes} {result : Option (List Bytes)} (plain : newline ∉ line)
      (later : Scans size held rest result) :
      Scans size (line ++ newline :: held) rest (result.map (dropReturn line :: ·))
  | full {held rest : Bytes} (plain : newline ∉ held) (filled : held.length = size) :
      Scans size held rest none
  | read {held chunk rest : Bytes} {result : Option (List Bytes)} (plain : newline ∉ held)
      (some : chunk ≠ []) (room : held.length + chunk.length ≤ size)
      (later : Scans size (held ++ chunk) rest result) : Scans size held (chunk ++ rest) result
  | last {held : Bytes} (plain : newline ∉ held) (filled : held ≠ []) (room : held.length < size) :
      Scans size held [] (some [dropReturn held])
  | done (room : 0 < size) : Scans size [] [] (some [])

/-- Whatever is read at a time, the lines are those of the whole contents. -/
theorem Scans.eq {result : Option (List Bytes)} (scans : Scans (lineLimit + 1) held rest result)
    (fits : held.length ≤ lineLimit + 1) : result = lines? (held ++ rest) := by
  induction scans with
  | @line line held rest result plain later ih =>
      rw [List.length_append, List.length_cons] at fits
      rw [List.append_assoc, List.cons_append, lines?_append plain, if_pos (by omega), ih (by omega)]
  | @full held rest plain filled => rw [lines?_long plain (by omega)]
  | @read held chunk rest result plain some room later ih =>
      rw [ih (by rwa [List.length_append]), List.append_assoc]
  | @last held plain filled room =>
      rw [List.append_nil, lines?_self plain filled, if_pos (by omega)]
  | done room => rfl

/-- The contents can be read, a byte at a time if not otherwise. -/
theorem exists_scans (held rest : Bytes) (fits : held.length ≤ lineLimit + 1) :
    Scans (lineLimit + 1) held rest (lines? (held ++ rest)) := by
  -- a byte that is read counts once less
  induction left : 2 * rest.length + held.length using Nat.strongRecOn generalizing held rest with
  | ind left ih =>
    by_cases ends : newline ∈ held
    · obtain ⟨line, held', rfl, plain⟩ := List.eq_append_cons_of_mem ends
      rw [List.length_append, List.length_cons] at fits left
      rw [List.append_assoc, List.cons_append, lines?_append plain, if_pos (by omega)]
      exact .line plain (ih _ (by omega) held' rest (by omega) rfl)
    · by_cases filled : held.length = lineLimit + 1
      · rw [lines?_long ends (by omega)]
        exact .full ends filled
      · cases rest with
        | nil =>
            by_cases empty : held = []
            · subst empty
              exact .done (Nat.succ_pos _)
            · rw [List.append_nil, lines?_self ends empty, if_pos (by omega)]
              exact .last ends empty (by omega)
        | cons byte rest =>
            have room : (held ++ [byte]).length ≤ lineLimit + 1 := by
              rw [List.length_append, List.length_singleton]
              omega
            have later : Scans (lineLimit + 1) (held ++ [byte]) rest (lines? (held ++ [byte] ++ rest)) := by
              refine ih _ ?_ _ _ room rfl
              rw [List.length_append, List.length_singleton]
              rw [List.length_cons] at left
              omega
            rw [List.length_append] at room
            rw [List.append_assoc] at later
            exact .read ends (List.cons_ne_nil byte []) room later

/-- The buffer holds a longest line and its newline. -/
theorem scans_iff {result : Option (List Bytes)} :
    Scans (lineLimit + 1) [] contents result ↔ result = lines? contents := by
  refine ⟨fun scans => scans.eq (Nat.zero_le _), ?_⟩
  rintro rfl
  exact exists_scans [] contents (Nat.zero_le _)

theorem dropReturn_eq_self (ends : line.getLast? ≠ some carriageReturn) : dropReturn line = line :=
  if_neg ends

theorem dropReturn_concat (line : Bytes) : dropReturn (line ++ [carriageReturn]) = line := by
  simp [dropReturn]

theorem lines?_newlines (plain : ∀ line ∈ lines, newline ∉ line)
    (ends : ∀ line ∈ lines, line.getLast? ≠ some carriageReturn)
    (short : ∀ line ∈ lines, line.length ≤ lineLimit) :
    lines? (lines.flatMap (· ++ [newline])) = some lines := by
  have layout : LineLayout (lines.flatMap (· ++ [newline])) lines [] := ⟨by simp, plain, by simp⟩
  have same : lines.map dropReturn = lines :=
    (List.map_congr_left fun line member => dropReturn_eq_self (ends line member)).trans
      (List.map_id lines)
  rw [layout.lines?_eq, if_pos ⟨short, Nat.zero_le _⟩, same]
  simp

/-- A carriage return before the newline takes one byte of the line's length. -/
theorem lines?_returns (plain : ∀ line ∈ lines, newline ∉ line)
    (short : ∀ line ∈ lines, line.length < lineLimit) :
    lines? (lines.flatMap (· ++ [carriageReturn, newline])) = some lines := by
  have layout : LineLayout (lines.flatMap (· ++ [carriageReturn, newline]))
      (lines.map (· ++ [carriageReturn])) [] := by
    refine ⟨by simp [List.flatMap_map], ?_, by simp⟩
    intro line member
    obtain ⟨line, inside, rfl⟩ := List.mem_map.mp member
    rw [List.mem_append, not_or]
    exact ⟨plain line inside, by decide⟩
  have bounded : ∀ line ∈ lines.map (· ++ [carriageReturn]), line.length ≤ lineLimit := by
    intro line member
    obtain ⟨line, inside, rfl⟩ := List.mem_map.mp member
    rw [List.length_append]
    exact short line inside
  have same : (lines.map (· ++ [carriageReturn])).map dropReturn = lines := by
    rw [List.map_map]
    exact (List.map_congr_left fun line _ => dropReturn_concat line).trans (List.map_id lines)
  rw [layout.lines?_eq, if_pos ⟨bounded, Nat.zero_le _⟩, same]
  simp

namespace Store

variable {s : Store} {path : String}

theorem readLines_of_some (found : s.readFile path = .ok contents)
    (read : lines? contents = some lines) : s.readLines path = .ok lines := by
  rw [readLines, found]
  dsimp only
  rw [read]

theorem readLines_of_none (found : s.readFile path = .ok contents) (long : lines? contents = none) :
    s.readLines path = .error .lineTooLong := by
  rw [readLines, found]
  dsimp only
  rw [long]

theorem readLines_eq_ok (found : s.readFile path = .ok contents) :
    s.readLines path = .ok lines ↔ lines? contents = some lines := by
  refine ⟨fun read => ?_, readLines_of_some found⟩
  cases same : lines? contents with
  | none => simp [readLines_of_none found same] at read
  | some others =>
      rw [readLines_of_some found same, Except.ok.injEq] at read
      rw [read]

theorem readLines_eq_error (found : s.readFile path = .ok contents) {fault : Fault} :
    s.readLines path = .error fault ↔ lines? contents = none ∧ fault = .lineTooLong := by
  cases same : lines? contents with
  | none => simp [readLines_of_none found same, eq_comm (a := fault)]
  | some others => simp [readLines_of_some found same]

/-- Lines that are written with a newline, or with a carriage return and a newline, are read back. Only a
line that is too long for the buffer makes reading fail, and reading gives what is found by filling the
buffer, however many bytes are read at a time. -/
theorem readLines_inverts_writing (s : Store) (path : String) :
    (∀ lines ending, (∀ line ∈ lines, newline ∉ line ∧ line.getLast? ≠ some carriageReturn ∧
        line.length ≤ 1048574) → ending = [newline] ∨ ending = [carriageReturn, newline] →
      s.readFile path = .ok (lines.flatMap (· ++ ending)) → s.readLines path = .ok lines) ∧
    ∀ contents, s.readFile path = .ok contents →
      (∃ lines last, LineLayout contents lines last) ∧
      (∀ lines last, LineLayout contents lines last →
        ((∃ fault, s.readLines path = .error fault) ↔
          (∃ line ∈ lines, 1048576 < line.length + 1) ∨ 1048575 < last.length)) ∧
      (∀ fault, s.readLines path = .error fault →
        fault = .lineTooLong ∧ fault.message = "bufio.Scanner: token too long") ∧
      (∀ lines, Scans 1048576 [] contents (some lines) ↔ s.readLines path = .ok lines) ∧
      (Scans 1048576 [] contents none ↔ s.readLines path = .error .lineTooLong) := by
  have limit : lineLimit = 1048575 := rfl
  refine ⟨fun lines ending valid endings found => ?_, fun contents found =>
    ⟨exists_lineLayout contents, fun lines last layout => ?_, fun fault failed => ?_, fun lines => ?_, ?_⟩⟩
  · rw [readLines_eq_ok found]
    rcases endings with rfl | rfl
    · exact lines?_newlines (fun line member => (valid line member).1)
        (fun line member => (valid line member).2.1)
        fun line member => Nat.le_succ_of_le (valid line member).2.2
    · exact lines?_returns (fun line member => (valid line member).1)
        fun line member => Nat.lt_succ_of_le (valid line member).2.2
  · have long : (∃ fault, s.readLines path = .error fault) ↔ lines? contents = none :=
      ⟨fun ⟨_, failed⟩ => ((readLines_eq_error found).mp failed).1,
        fun long => ⟨_, readLines_of_none found long⟩⟩
    rw [long, layout.lines?_eq_none, limit]
    simp only [Nat.succ_lt_succ_iff]
  · obtain ⟨-, rfl⟩ := (readLines_eq_error found).mp failed
    exact ⟨rfl, rfl⟩
  · rw [readLines_eq_ok found, eq_comm]
    exact scans_iff
  · rw [readLines_eq_error found, and_iff_left rfl, eq_comm]
    exact scans_iff

def oneFile (contents : Bytes) : Store := ({} : Store).insert ["a"] (.file contents false)

theorem readFile_oneFile (contents : Bytes) : (oneFile contents).readFile "a" = .ok contents := rfl

/-- A longest line and an empty one are read back; two bytes more and no newline are too many. -/
theorem readLines_inverts_writing_longest :
    (∀ line ∈ [List.replicate 1048574 65, []], newline ∉ line ∧
      line.getLast? ≠ some carriageReturn ∧ line.length ≤ 1048574) ∧
    (oneFile ([List.replicate 1048574 65, []].flatMap (· ++ [carriageReturn, newline]))).readLines "a" =
      .ok [List.replicate 1048574 65, []] ∧
    LineLayout (List.replicate 1048576 65) [] (List.replicate 1048576 65) ∧
    (oneFile (List.replicate 1048576 65)).readLines "a" = .error .lineTooLong := by
  have free (n : Nat) : newline ∉ List.replicate n 65 := fun member =>
    absurd (List.eq_of_mem_replicate member) (by decide)
  have ends (n : Nat) : (List.replicate n 65).getLast? ≠ some carriageReturn := fun last =>
    absurd (List.eq_of_mem_replicate (List.mem_of_getLast? last)) (by decide)
  have valid : ∀ line ∈ [List.replicate 1048574 65, []], newline ∉ line ∧
      line.getLast? ≠ some carriageReturn ∧ line.length ≤ 1048574 := by
    rw [List.forall_mem_cons, List.forall_mem_singleton]
    exact ⟨⟨free _, ends _, Nat.le_of_eq List.length_replicate⟩, by decide⟩
  have layout : LineLayout (List.replicate 1048576 65) [] (List.replicate 1048576 65) :=
    ⟨rfl, by decide, free _⟩
  refine ⟨valid, (readLines_inverts_writing _ _).1 _ _ valid (Or.inr rfl) (readFile_oneFile _), layout, ?_⟩
  obtain ⟨-, failing, message, -⟩ :=
    (readLines_inverts_writing (oneFile (List.replicate 1048576 65)) "a").2 _ (readFile_oneFile _)
  obtain ⟨fault, failed⟩ := (failing _ _ layout).mpr (Or.inr (by rw [List.length_replicate]; decide))
  rw [failed, (message fault failed).1]

end Store

end DawnC
