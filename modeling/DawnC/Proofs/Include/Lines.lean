import DawnC.Atom.Lexer
import DawnC.Include.Splice
import DawnC.Proofs.Include.Alike
import DawnC.Proofs.SourceLine

set_option autoImplicit false

namespace DawnC

def Atom.moved (file : String) (line stmt : Int) (a : Atom) : Atom :=
  { a with file, line := a.line + line, stmt := a.stmt + stmt }

namespace Scanner

def moved (file : String) (line stmt : Int) (before : List Atom) (s : Scanner) : Scanner :=
  { s with
    file
    line := s.line + line
    stmt := s.stmt + stmt
    done := s.done.map (Atom.moved file line stmt) ++ before }

variable {file : String} {line stmt : Int} {before : List Atom}

theorem push_moved (s : Scanner) (text : List Char) (kind : AtomKind) :
    (s.moved file line stmt before).push text kind =
      (s.push text kind).moved file line stmt before := rfl

theorem endStatement_moved (s : Scanner) :
    (s.moved file line stmt before).endStatement = s.endStatement.moved file line stmt before := by
  simp only [endStatement, moved, Int.add_right_comm]

theorem flush_moved (s : Scanner) :
    (s.moved file line stmt before).flush = s.flush.moved file line stmt before := by
  simp only [flush, moved]
  split
  · rfl
  · rfl

theorem stepPlain_moved (s : Scanner) (c : Char) :
    (s.moved file line stmt before).stepPlain c = (s.stepPlain c).moved file line stmt before := by
  simp only [stepPlain, flush_moved, push_moved, endStatement_moved]
  split
  · rfl
  · split
    · split <;> rfl
    · split
      · split <;> rfl
      · rfl

theorem step_moved (s : Scanner) (c : Char) :
    (s.moved file line stmt before).step c = (s.step c).moved file line stmt before := by
  have mode : (s.moved file line stmt before).mode = s.mode := rfl
  simp only [step, mode, stepPlain_moved]
  split <;> rfl

theorem foldl_moved (chars : List Char) (s : Scanner) :
    chars.foldl step (s.moved file line stmt before) =
      (chars.foldl step s).moved file line stmt before := by
  induction chars generalizing s with
  | nil => rfl
  | cons c rest ih => rw [List.foldl_cons, step_moved, ih, List.foldl_cons]

theorem scanLine_moved (s : Scanner) (chars : List Char) :
    (s.moved file line stmt before).scanLine chars =
      (s.scanLine chars).moved file line stmt before := by
  have next : { s.moved file line stmt before with line := s.line + line + 1 } =
      { s with line := s.line + 1 }.moved file line stmt before := by
    simp only [moved, Int.add_right_comm]
  simp only [scanLine]
  split
  · exact next
  · rw [show (s.moved file line stmt before).line = s.line + line from rfl, next, foldl_moved,
      flush_moved, endStatement_moved]
    rfl

/-- Between lines the scanner is as it was at the start, but for its place. -/
theorem scanLine_idle (s : Scanner) (chars : List Char) (mode : s.mode = .plain)
    (idle : s.pending = []) :
    (s.scanLine chars).mode = .plain ∧ (s.scanLine chars).pending = [] := by
  simp only [scanLine]
  split
  · exact ⟨mode, idle⟩
  · refine ⟨rfl, ?_⟩
    simp only [endStatement]
    exact flush_pending _

/-- The atoms read so far are of this file and of the statements up to the one being read. -/
structure Counts (file : String) (s : Scanner) : Prop where
  named : s.file = file
  positive : 0 ≤ s.stmt
  bounded : ∀ a ∈ s.done, a.file = file ∧ 0 ≤ a.stmt ∧ a.stmt ≤ s.stmt

namespace Counts

variable {s : Scanner}

theorem of_eq {s' : Scanner} (counts : s.Counts file) (named : s'.file = s.file)
    (stmt : s'.stmt = s.stmt) (done : s'.done = s.done) : s'.Counts file := by
  refine ⟨named.trans counts.named, stmt ▸ counts.positive, ?_⟩
  rw [stmt, done]
  exact counts.bounded

theorem push (counts : s.Counts file) (text : List Char) (kind : AtomKind) :
    (s.push text kind).Counts file := by
  refine ⟨counts.named, counts.positive, fun a member => ?_⟩
  rcases List.mem_cons.mp member with rfl | earlier
  · exact ⟨counts.named, counts.positive, Int.le_refl _⟩
  · exact counts.bounded a earlier

theorem flush (counts : s.Counts file) : s.flush.Counts file := by
  simp only [Scanner.flush]
  split
  · exact counts
  · exact push (s := { s with pending := [] }) (counts.of_eq rfl rfl rfl) _ _

theorem endStatement (counts : s.Counts file) : s.endStatement.Counts file := by
  have positive := counts.positive
  have next : s.endStatement.stmt = s.stmt + 1 := rfl
  refine ⟨counts.named, by omega, fun a member => ?_⟩
  obtain ⟨named, low, high⟩ := counts.bounded a member
  exact ⟨named, low, by omega⟩

theorem step (counts : s.Counts file) (c : Char) : (s.step c).Counts file := by
  simp only [Scanner.step]
  split
  · simp only [Scanner.stepPlain]
    split
    · exact counts.of_eq rfl rfl rfl
    · split
      · split
        · exact counts.flush.endStatement
        · exact counts.flush
      · split
        · split
          · exact (counts.flush.push _ _).endStatement
          · exact counts.flush.push _ _
        · exact counts.of_eq rfl rfl rfl
  · exact counts.of_eq rfl rfl rfl
  · exact counts.of_eq rfl rfl rfl

theorem fresh (file : String) (line : Int) : Counts file { file, line } :=
  ⟨rfl, Int.le_refl _, fun _ member => absurd member List.not_mem_nil⟩

theorem foldl (counts : s.Counts file) (chars : List Char) :
    (chars.foldl Scanner.step s).Counts file := by
  induction chars generalizing s with
  | nil => exact counts
  | cons c rest ih => exact ih (counts.step c)

end Counts

end Scanner

def scanned (line : Bytes) : Scanner := Scanner.scanLine { file := "" } (Utf8.decode line)

def atomsOf (line : Bytes) : List Atom := (scanned line).done.reverse

theorem mem_atomsOf {line : Bytes} {a : Atom} (member : a ∈ atomsOf line) :
    a.file = "" ∧ 0 ≤ a.stmt ∧ a.stmt < (scanned line).stmt := by
  have counts := ((Scanner.Counts.fresh "" 1).foldl (terminated (Utf8.decode line))).flush
  rw [atomsOf, List.mem_reverse] at member
  unfold scanned at member ⊢
  simp only [Scanner.scanLine] at member ⊢
  split at member
  · cases member
  · rename_i notComment
    rw [if_neg notComment]
    obtain ⟨named, low, high⟩ := counts.bounded a member
    exact ⟨named, low, Int.lt_add_one_of_le high⟩

/-- The atoms of lines, in a file and after this many lines and statements. -/
def atomsFrom (file : String) (line stmt : Int) : List Bytes → List Atom
  | [] => []
  | first :: rest =>
    (atomsOf first).map (Atom.moved file line stmt) ++
      atomsFrom file (line + (scanned first).line) (stmt + (scanned first).stmt) rest

/-- A file is read line by line. -/
theorem lex_eq (file : String) (lines : List Bytes) : lex file lines = atomsFrom file 0 0 lines := by
  have later (line stmt : Int) (done : List Atom) (lines : List Bytes) :
      ((lines.map Utf8.decode).foldl Scanner.scanLine
          { file, line, stmt, done }).done.reverse =
        done.reverse ++ atomsFrom file line stmt lines := by
    induction lines generalizing line stmt done with
    | nil => simp [atomsFrom]
    | cons first rest ih =>
        have here : Scanner.scanLine { file, line, stmt, done } (Utf8.decode first) =
            (scanned first).moved file line stmt done := by
          rw [scanned, ← Scanner.scanLine_moved]
          simp [Scanner.moved]
        obtain ⟨mode, idle⟩ : (scanned first).mode = .plain ∧ (scanned first).pending = [] :=
          Scanner.scanLine_idle { file := "" } (Utf8.decode first) rfl rfl
        have shape : (scanned first).moved file line stmt done =
            { file
              line := line + (scanned first).line
              stmt := stmt + (scanned first).stmt
              done := (scanned first).done.map (Atom.moved file line stmt) ++ done } := by
          simp only [Scanner.moved, mode, idle, Int.add_comm]
        rw [List.map_cons, List.foldl_cons, here, shape, ih, atomsFrom, atomsOf]
        simp
  exact later 0 0 [] lines

/-- Texts, kinds, and where a statement begins; atoms with the same key are of one statement. -/
def seen {κ : Type} [DecidableEq κ] (key : Atom → κ) (previous : Option κ) :
    List Atom → List (String × AtomKind × Bool)
  | [] => []
  | a :: rest => (a.text, a.kind, decide (previous ≠ some (key a))) :: seen key (some (key a)) rest

def lastKey {κ : Type} (key : Atom → κ) (previous : Option κ) : List Atom → Option κ
  | [] => previous
  | a :: rest => lastKey key (some (key a)) rest

theorem seen_append {κ : Type} [DecidableEq κ] (key : Atom → κ) (previous : Option κ)
    (first second : List Atom) :
    seen key previous (first ++ second) =
      seen key previous first ++ seen key (lastKey key previous first) second := by
  induction first generalizing previous with
  | nil => rfl
  | cons a rest ih => rw [List.cons_append, seen, ih, seen, lastKey, List.cons_append]

theorem lastKey_append {κ : Type} (key : Atom → κ) (previous : Option κ)
    (first second : List Atom) :
    lastKey key previous (first ++ second) = lastKey key (lastKey key previous first) second := by
  induction first generalizing previous with
  | nil => rfl
  | cons a rest ih => rw [List.cons_append, lastKey, ih, lastKey]

theorem lastKey_mem {κ : Type} (key : Atom → κ) (previous : Option κ) (atoms : List Atom) :
    lastKey key previous atoms = previous ∨ ∃ a ∈ atoms, lastKey key previous atoms = some (key a) := by
  induction atoms generalizing previous with
  | nil => exact Or.inl rfl
  | cons a rest ih =>
      refine Or.inr ?_
      rcases ih (some (key a)) with same | ⟨b, member, last⟩
      · exact ⟨a, List.mem_cons_self, same⟩
      · exact ⟨b, List.mem_cons_of_mem _ member, last⟩

theorem Alike.of_seen {atoms atoms' : List Atom} {previous previous' : Option Int}
    (same : seen Atom.stmt previous atoms = seen Atom.stmt previous' atoms') :
    Alike atoms atoms' := by
  induction atoms generalizing atoms' previous previous' with
  | nil =>
      cases atoms' with
      | nil => exact .nil
      | cons b rest => cases same
  | cons a rest ih =>
      cases atoms' with
      | nil => cases same
      | cons b rest' =>
          simp only [seen, List.cons.injEq, Prod.mk.injEq] at same
          obtain ⟨⟨text, kind, -⟩, rest_same⟩ := same
          refine .cons ⟨text, kind⟩ ?_ (ih rest_same)
          intro next head next' head'
          cases rest with
          | nil => cases head
          | cons c rest =>
              cases rest' with
              | nil => cases head'
              | cons c' rest' =>
                  cases head
                  cases head'
                  simp only [seen, List.cons.injEq, Prod.mk.injEq] at rest_same
                  have flags := decide_eq_decide.mp rest_same.1.2.2
                  rw [ne_eq, Option.some.injEq, ne_eq, Option.some.injEq] at flags
                  exact Decidable.not_iff_not.mp flags

/-- The statement of an atom, among all files. -/
def Atom.key (a : Atom) : String × Int := (a.file, a.stmt)

/-- In one file, statements are told apart by their ordinals. -/
theorem seen_stmt {file : String} {atoms : List Atom} (one : ∀ a ∈ atoms, a.file = file)
    (previous : Option Int) :
    seen Atom.stmt previous atoms = seen Atom.key (previous.map (file, ·)) atoms := by
  induction atoms generalizing previous with
  | nil => rfl
  | cons a rest ih =>
      have here := one a List.mem_cons_self
      have key : a.key = (file, a.stmt) := by rw [Atom.key, here]
      rw [seen, seen, ih (fun b member => one b (List.mem_cons_of_mem _ member)), key]
      cases previous with
      | none => rfl
      | some stmt => simp

theorem renumberFrom_append (stmt : Int) (previous : Option (String × Int))
    (done atoms : List Atom) :
    renumberFrom stmt previous done atoms = done.reverse ++ renumberFrom stmt previous [] atoms := by
  induction atoms generalizing stmt previous done with
  | nil => simp [renumberFrom]
  | cons a rest ih =>
      rw [renumberFrom, ih, renumberFrom, ih _ _ [_]]
      simp

theorem seen_renumberFrom (stmt : Int) (previous : Option (String × Int)) (atoms : List Atom) :
    seen Atom.stmt (previous.map fun _ => stmt) (renumberFrom stmt previous [] atoms) =
      seen Atom.key previous atoms := by
  induction atoms generalizing stmt previous with
  | nil => rfl
  | cons a rest ih =>
      have next := ih (if previous = some a.key then stmt else stmt + 1) (some a.key)
      have flag : decide (previous.map (fun _ => stmt) ≠
          some (if previous = some a.key then stmt else stmt + 1)) =
            decide (previous ≠ some a.key) := by
        by_cases same : previous = some a.key
        · simp [same]
        · cases previous with
          | none => simp
          | some key =>
              have other : stmt ≠ stmt + 1 := by omega
              simp [same, other]
      rw [renumberFrom, renumberFrom_append]
      simp only [List.reverse_singleton, List.singleton_append, seen, ← next]
      rw [← flag]
      rfl

/-- Renumbering changes no break between statements. -/
theorem seen_renumber (atoms : List Atom) :
    seen Atom.stmt none (renumber atoms) = seen Atom.key none atoms :=
  seen_renumberFrom (-1) none atoms

def lineSeen (line : Bytes) : List (String × AtomKind × Bool) := seen Atom.key none (atomsOf line)

/-- No atom of the last statement is in this file and of these statements or later ones. -/
def Past (file : String) (stmt : Int) (previous : Option (String × Int)) : Prop :=
  ∀ key ∈ previous, key.1 = file → key.2 < stmt

theorem seen_moved {atoms : List Atom} {file : String} (one : ∀ a ∈ atoms, a.file = "")
    (line stmt : Int) (previous : Int) :
    seen Atom.key (some (file, previous + stmt)) (atoms.map (Atom.moved file line stmt)) =
      seen Atom.key (some ("", previous)) atoms := by
  induction atoms generalizing previous with
  | nil => rfl
  | cons a rest ih =>
      have here := one a List.mem_cons_self
      have key : a.key = ("", a.stmt) := by rw [Atom.key, here]
      have moved : (a.moved file line stmt).key = (file, a.stmt + stmt) := rfl
      have flag : (previous + stmt = a.stmt + stmt) = (previous = a.stmt) := by
        rw [Int.add_left_inj]
      rw [List.map_cons, seen, seen, moved, key,
        ih fun b member => one b (List.mem_cons_of_mem _ member)]
      simp [Atom.moved, flag]

/-- Wherever a line stands, the same is seen of it. -/
theorem seen_line {file : String} {stmt : Int} {previous : Option (String × Int)}
    (past : Past file stmt previous) (line : Int) (bytes : Bytes) :
    seen Atom.key previous ((atomsOf bytes).map (Atom.moved file line stmt)) = lineSeen bytes := by
  have bounds {a : Atom} : a ∈ atomsOf bytes → _ := mem_atomsOf
  rw [lineSeen]
  generalize atomsOf bytes = atoms at bounds
  cases atoms with
  | nil => rfl
  | cons a rest =>
      obtain ⟨named, low, -⟩ := bounds List.mem_cons_self
      have new : previous ≠ some (file, a.stmt + stmt) := by
        rintro rfl
        have before : a.stmt + stmt < stmt := past _ rfl rfl
        omega
      have key : a.key = ("", a.stmt) := by rw [Atom.key, named]
      have moved : (a.moved file line stmt).key = (file, a.stmt + stmt) := rfl
      have text : (a.moved file line stmt).text = a.text := rfl
      have kind : (a.moved file line stmt).kind = a.kind := rfl
      rw [List.map_cons, seen, seen, moved, key, text, kind,
        seen_moved fun b member => (bounds (List.mem_cons_of_mem _ member)).1]
      simp [new]

theorem scanned_stmt (line : Bytes) : 0 ≤ (scanned line).stmt := by
  have counts :=
    ((Scanner.Counts.fresh "" 1).foldl (terminated (Utf8.decode line))).flush.endStatement
  unfold scanned
  simp only [Scanner.scanLine]
  split
  · exact Int.le_refl _
  · exact counts.positive

theorem lastKey_line (file : String) (line stmt : Int) (previous : Option (String × Int))
    (bytes : Bytes) :
    lastKey Atom.key previous ((atomsOf bytes).map (Atom.moved file line stmt)) = previous ∨
      ∃ last, lastKey Atom.key previous ((atomsOf bytes).map (Atom.moved file line stmt)) =
        some (file, last) ∧ last < stmt + (scanned bytes).stmt := by
  rcases lastKey_mem Atom.key previous ((atomsOf bytes).map (Atom.moved file line stmt)) with
    same | ⟨a, member, last⟩
  · exact Or.inl same
  · obtain ⟨b, inside, rfl⟩ := List.mem_map.mp member
    obtain ⟨-, -, high⟩ := mem_atomsOf inside
    exact Or.inr ⟨b.stmt + stmt, last, by omega⟩

/-- After a line, the statements of the line are past. -/
theorem Past.line {file : String} {stmt : Int} {previous : Option (String × Int)}
    (past : Past file stmt previous) (line : Int) (bytes : Bytes) :
    Past file (stmt + (scanned bytes).stmt)
      (lastKey Atom.key previous ((atomsOf bytes).map (Atom.moved file line stmt))) := by
  have forward := scanned_stmt bytes
  rcases lastKey_line file line stmt previous bytes with same | ⟨last, found, below⟩
  · rw [same]
    intro key member named
    have before := past key member named
    omega
  · rw [found]
    rintro key ⟨⟩ -
    exact below

theorem seen_atomsFrom {file : String} {line stmt : Int} {previous : Option (String × Int)}
    (past : Past file stmt previous) (lines : List Bytes) :
    seen Atom.key previous (atomsFrom file line stmt lines) = lines.flatMap lineSeen := by
  induction lines generalizing line stmt previous with
  | nil => rfl
  | cons first rest ih =>
      rw [atomsFrom, seen_append, seen_line past, ih (past.line line first), List.flatMap_cons]

theorem mem_atomsFrom {file : String} {line stmt : Int} {lines : List Bytes} {a : Atom}
    (member : a ∈ atomsFrom file line stmt lines) : a.file = file := by
  induction lines generalizing line stmt with
  | nil => cases member
  | cons first rest ih =>
      rcases List.mem_append.mp member with here | later
      · obtain ⟨b, -, rfl⟩ := List.mem_map.mp here
        rfl
      · exact ih later

theorem seen_lex (file : String) (lines : List Bytes) :
    seen Atom.stmt none (lex file lines) = lines.flatMap lineSeen := by
  rw [lex_eq, seen_stmt fun a => mem_atomsFrom]
  exact seen_atomsFrom (fun key member => absurd member (by simp)) lines

end DawnC
