import DawnC.Proofs.Remote.Agreement

set_option autoImplicit false

namespace DawnC

namespace Text

variable {α : Type} [DecidableEq α] {sep : α}

theorem cut_append_plain {front : List α} (absent : sep ∉ front) {xs first : List α}
    {rest : List (List α)} (pieces : cut sep xs = first :: rest) :
    cut sep (front ++ xs) = (front ++ first) :: rest := by
  induction front with
  | nil => exact pieces
  | cons x front ih =>
      rw [List.mem_cons, not_or] at absent
      rw [List.cons_append, cut_cons_of_ne (Ne.symm absent.1), ih absent.2]
      rfl

end Text

namespace Path

/-- The path and the directory are from the root, and the path leads to a place below the directory. -/
def IsBelow (path dir : String) : Prop :=
  isAbsolute path = true ∧ isAbsolute dir = true ∧
    place [] dir <+: place [] path ∧ place [] path ≠ place [] dir

instance (path dir : String) : Decidable (IsBelow path dir) :=
  inferInstanceAs (Decidable (_ ∧ _ ∧ _ ∧ _))

theorem place_of_isAbsolute {path : String} (absolute : isAbsolute path = true)
    (cwd : List String) : place cwd path = place [] path := by
  rw [place, place, if_pos absolute, if_pos absolute]

theorem isBelow_of_append {path dir : String} {names : List String}
    (absolute : isAbsolute path = true) (rooted : isAbsolute dir = true)
    (shape : place [] path = place [] dir ++ names) (filled : names ≠ []) : IsBelow path dir := by
  refine ⟨absolute, rooted, shape ▸ List.prefix_append _ _, ?_⟩
  rw [shape]
  simpa using filled

theorem elements_append_plain {front : String} (plain : '/' ∉ front.toList) {path first : String}
    {rest : List String} (pieces : elements path = first :: rest) :
    elements (front ++ path) = (front ++ first) :: rest := by
  cases cutting : Text.cut '/' path.toList with
  | nil => exact absurd cutting (Text.cut_ne_nil _ _)
  | cons piece others =>
      rw [elements, Text.splitAt, cutting, List.map_cons, List.cons.injEq] at pieces
      rw [elements, Text.splitAt, String.toList_append, Text.cut_append_plain plain cutting,
        List.map_cons, pieces.2, String.ofList_append, pieces.1, String.ofList_toList]

theorem isAbsolute_of_elements {path first : String} {rest : List String}
    (pieces : elements path = first :: rest) (filled : first ≠ "") : isAbsolute path = false := by
  cases chars : path.toList with
  | nil => simp [isAbsolute, chars]
  | cons c others =>
      by_cases slash : c = '/'
      · rw [elements, Text.splitAt, chars, slash, Text.cut_cons_self, List.map_cons,
          List.cons.injEq] at pieces
        exact absurd pieces.1.symm filled
      · simpa [isAbsolute, chars] using slash

/-- Without a step up, cleaning takes nothing away. -/
theorem isSuffix_foldl_cleanStep (rooted : Bool) (stack : List String) {list : List String}
    (level : ".." ∉ list) : stack <:+ list.foldl (cleanStep rooted) stack := by
  induction list generalizing stack with
  | nil => exact List.suffix_rfl
  | cons first rest ih =>
      rw [List.mem_cons, not_or] at level
      have kept : stack <:+ cleanStep rooted stack first := by
        unfold cleanStep
        split
        · exact List.suffix_rfl
        · rw [if_neg (Ne.symm level.1)]
          exact List.suffix_cons first stack
      exact kept.trans (ih _ level.2)

end Path

namespace Reference

variable {text : String} {r : Reference}

/-- Cleaned, the path of the checkout in the cache starts with a name: it leads neither up nor back to
where it started. -/
def Inward (r : Reference) : Prop :=
  (Path.cleanElements (r.repo ++ "@" ++ r.ref)).head?.any (· ≠ "..") = true

instance (r : Reference) : Decidable r.Inward :=
  inferInstanceAs (Decidable (_ = _))

/-- The elements of the checkout's path: the location's names, the third with the first element of the
ref, and the other elements of the ref as they are. -/
theorem elements_of_parse (parsed : parse text = .ok r) :
    ∃ host owner name first rest, Path.IsName host ∧ Path.IsName owner ∧
      Path.elements r.ref = first :: rest ∧
      Path.elements (r.repo ++ "@" ++ r.ref) = host :: owner :: (name ++ "@" ++ first) :: rest := by
  obtain ⟨names, long, valid, repo, -⟩ := names_of_parse parsed
  match names, long, valid with
  | host :: owner :: name :: others, _, valid =>
      have hostName : Path.IsName host := valid host (by simp)
      have ownerName : Path.IsName owner := valid owner (by simp)
      have plain : '/' ∉ (name ++ "@").toList := by
        simpa using (valid name (by simp)).2.2.2
      have shape : r.repo ++ "@" ++ r.ref =
          host ++ "/" ++ (owner ++ "/" ++ (name ++ "@" ++ r.ref)) := by
        simp [repo, String.append_assoc]
      cases pieces : Path.elements r.ref with
      | nil => exact absurd pieces (by simpa [Path.elements, Text.splitAt] using Text.cut_ne_nil _ _)
      | cons first rest =>
          refine ⟨host, owner, name, first, rest, hostName, ownerName, rfl, ?_⟩
          rw [shape, Path.elements_append, Path.elements_append,
            Path.elements_self hostName.2.2.2, Path.elements_self ownerName.2.2.2,
            Path.elements_append_plain plain pieces]
          rfl

theorem isAbsolute_of_parse (parsed : parse text = .ok r) :
    Path.isAbsolute (r.repo ++ "@" ++ r.ref) = false := by
  obtain ⟨host, owner, name, first, rest, hostName, -, -, shape⟩ := elements_of_parse parsed
  exact Path.isAbsolute_of_elements shape hostName.1

/-- A ref whose elements do not lead up keeps the checkout in the cache. -/
theorem inward_of_level (parsed : parse text = .ok r) (level : ".." ∉ Path.elements r.ref) :
    r.Inward := by
  obtain ⟨host, owner, name, first, rest, hostName, ownerName, ref, shape⟩ :=
    elements_of_parse parsed
  have marked : name ++ "@" ++ first ≠ ".." := by
    intro same
    have member : '@' ∈ (name ++ "@" ++ first).toList := by simp
    rw [same] at member
    exact absurd member (by decide)
  have level : ".." ∉ owner :: (name ++ "@" ++ first) :: rest := by
    rw [ref, List.mem_cons, not_or] at level
    simp only [List.mem_cons, not_or]
    exact ⟨Ne.symm ownerName.2.2.1, Ne.symm marked, level.2⟩
  have start : Path.cleanStep (Path.isAbsolute (r.repo ++ "@" ++ r.ref)) [] host = [host] := by
    simp [Path.cleanStep, hostName.1, hostName.2.1, hostName.2.2.1]
  obtain ⟨more, kept⟩ := Path.isSuffix_foldl_cleanStep
    (Path.isAbsolute (r.repo ++ "@" ++ r.ref)) [host] level
  rw [Inward, Path.cleanElements, shape, List.foldl_cons, start, ← kept]
  simpa using hostName.2.2.1

end Reference

namespace Cache

open Attempt (Sustains)
open Store (AgreeAt Changes)
open DawnC.Path (Normal IsBelow)

variable {c : Cache} {remotes : Remotes} {r : Reference} {text : String} {cwd : Location}

/-- The checkout lies some directories above the cache's directory, and then down by names. -/
theorem place_checkoutPath (parsed : Reference.parse text = .ok r) :
    ∃ (ups : Nat) (names : List String), (∀ name ∈ names, Path.IsName name) ∧
      Path.cleanElements (r.repo ++ "@" ++ r.ref) = List.replicate ups ".." ++ names ∧
      ∀ (c : Cache) (cwd : Location), c.dir ≠ "" →
        Path.place cwd (c.checkoutPath r.repo r.ref) = Path.above (Path.place cwd c.dir) ups ++ names := by
  have relative := Reference.isAbsolute_of_parse parsed
  obtain ⟨n, -, cleaned, -⟩ := Path.exists_normal (r.repo ++ "@" ++ r.ref)
  refine ⟨n.ups, n.names, n.valid, cleaned, ?_⟩
  intro c cwd filled
  rw [checkoutPath, Path.place_join filled, ← n.follow_elements, ← cleaned, Path.follow_cleanElements]
  intro rooted
  rw [relative] at rooted
  cases rooted

/-- The checkout of an inward reference lies down by names from the cache's directory. -/
theorem place_checkoutPath_inward (parsed : Reference.parse text = .ok r) (inward : r.Inward)
    (filled : c.dir ≠ "") (cwd : Location) : ∃ names, names ≠ [] ∧
      Path.place cwd (c.checkoutPath r.repo r.ref) = Path.place cwd c.dir ++ names := by
  obtain ⟨ups, names, -, cleaned, leads⟩ := place_checkoutPath parsed
  rw [Reference.Inward, cleaned] at inward
  cases ups with
  | succ ups => simp [List.replicate_succ] at inward
  | zero =>
      refine ⟨names, ?_, ?_⟩
      · rintro rfl
        simp at inward
      · rw [leads c cwd filled]
        simp [Path.above]

/-- The checkout of an inward reference lies below the cache. -/
theorem isBelow_checkoutPath (parsed : Reference.parse text = .ok r) (inward : r.Inward)
    (absolute : Path.isAbsolute c.dir = true) : IsBelow (c.checkoutPath r.repo r.ref) c.dir := by
  obtain ⟨names, filled, leads⟩ :=
    place_checkoutPath_inward parsed inward (Path.ne_empty absolute) []
  exact Path.isBelow_of_append (Path.isAbsolute_join absolute _) absolute leads filled

/-- A reference whose checkout lies below two caches that are side by side is inward. -/
theorem inward_of_isBelow (parsed : Reference.parse text = .ok r)
    (first : IsBelow ((⟨"/a"⟩ : Cache).checkoutPath r.repo r.ref) "/a")
    (second : IsBelow ((⟨"/b"⟩ : Cache).checkoutPath r.repo r.ref) "/b") : r.Inward := by
  obtain ⟨ups, names, valid, cleaned, leads⟩ := place_checkoutPath parsed
  have placeA : Path.place [] "/a" = ["a"] := by decide
  have placeB : Path.place [] "/b" = ["b"] := by decide
  obtain ⟨-, -, downA, apartA⟩ := first
  obtain ⟨-, -, downB, -⟩ := second
  rw [leads ⟨"/a"⟩ [] (by decide), placeA] at downA apartA
  rw [leads ⟨"/b"⟩ [] (by decide), placeB] at downB
  rw [Reference.Inward, cleaned]
  cases ups with
  | zero =>
      cases names with
      | nil => exact absurd rfl apartA
      | cons name rest => simpa using (valid name List.mem_cons_self).2.2.1
  | succ ups =>
      -- one step up leads to the root, from where the names would have to lead into both
      have rootA : Path.above ["a"] (ups + 1) = [] := by simp [Path.above]
      have rootB : Path.above ["b"] (ups + 1) = [] := by simp [Path.above]
      rw [rootA, List.nil_append] at downA
      rw [rootB, List.nil_append] at downB
      obtain ⟨below, rfl⟩ := downA
      obtain ⟨below', other⟩ := downB
      simp at other

/-- The file of a reference lies down by names from its checkout, wherever that is. -/
theorem place_file (parsed : Reference.parse text = .ok r) (c : Cache) (cwd : Location) :
    ∃ names, names ≠ [] ∧ Path.place cwd (Path.join [c.checkoutPath r.repo r.ref, r.file]) =
      Path.place cwd (c.checkoutPath r.repo r.ref) ++ names := by
  obtain ⟨names, valid, filled, file⟩ := Reference.file_of_parse parsed
  obtain ⟨d, normal, -⟩ := c.exists_checkoutPath r.repo r.ref
  refine ⟨names, filled, ?_⟩
  rw [normal, Path.place_join d.text_ne_empty, file, Normal.follow_elements_text,
    Normal.follow_elements]
  simp [Path.above, Normal.below]

theorem isBelow_file (parsed : Reference.parse text = .ok r)
    (absolute : Path.isAbsolute c.dir = true) :
    IsBelow (Path.join [c.checkoutPath r.repo r.ref, r.file]) (c.checkoutPath r.repo r.ref) := by
  obtain ⟨names, filled, leads⟩ := place_file parsed c []
  have rooted : Path.isAbsolute (c.checkoutPath r.repo r.ref) = true := Path.isAbsolute_join absolute _
  exact Path.isBelow_of_append (Path.isAbsolute_join rooted _) rooted leads filled

/-- The checkout of an inward reference as a cleaned path, below that of the cache. -/
theorem exists_below (parsed : Reference.parse text = .ok r) (inward : r.Inward)
    (absolute : Path.isAbsolute c.dir = true) (clean : Path.clean c.dir = c.dir) (cwd : Location) :
    ∃ e d : Normal, c.dir = e.text ∧ c.checkoutPath r.repo r.ref = d.text ∧
      e.place cwd = Path.place cwd c.dir ∧ e.place cwd <+: d.place cwd := by
  obtain ⟨e, -, -, shape⟩ := Path.exists_normal c.dir
  obtain ⟨d, normal, -⟩ := c.exists_checkoutPath r.repo r.ref
  obtain ⟨rooted, -, down, -⟩ := isBelow_checkoutPath parsed inward absolute
  rw [← Path.place_of_isAbsolute rooted cwd, ← Path.place_of_isAbsolute absolute cwd, normal,
    Normal.place_text] at down
  rw [clean] at shape
  have here : e.place cwd = Path.place cwd c.dir := by rw [shape, Normal.place_text]
  exact ⟨e, d, shape, normal, here, here ▸ down⟩

/-- A fetch into a checkout below the cache writes in the cache only. -/
theorem fetch_changes_below (parsed : Reference.parse text = .ok r) {e d : Normal}
    (shape : c.dir = e.text) (normal : c.checkoutPath r.repo r.ref = d.text)
    (down : e.place cwd <+: d.place cwd) :
    Sustains (World.OnStore (Changes cwd (· <+: e.place cwd) (e.place cwd <+: ·)))
      (c.fetch remotes text) := by
  have ensured : Sustains (Changes cwd (fun l => l <+: e.place cwd ∨ l <+: d.place cwd)
      (d.place cwd <+: ·)) c.ensure := by
    rw [ensure, shape]
    exact FileAction.makeDirectories_text_changes fun _ up => Or.inl (Or.inl up)
  have changes : Sustains _ (c.provide remotes r) :=
    provide_changes normal ensured fun _ up => Or.inr up
  intro w tree
  obtain ⟨tree', outside⟩ := changes w tree
  rw [run_fetch_state parsed]
  refine ⟨tree', ?_⟩
  intro place untouched
  obtain ⟨rule, same | ⟨up, made⟩⟩ := outside place fun touched => untouched (down.trans touched)
  · exact ⟨rule, Or.inl same⟩
  · refine ⟨rule, Or.inr ⟨?_, made⟩⟩
    rcases up with up | up
    · exact up
    · exact (List.prefix_or_prefix_of_prefix down up).resolve_left untouched

section Inside

variable (parsed : Reference.parse text = .ok r) (inward : r.Inward)
  (absolute : Path.isAbsolute c.dir = true) (clean : Path.clean c.dir = c.dir)

include parsed inward absolute clean

/-- A fetch writes in the cache only; outside it makes the directories that lead there. -/
theorem fetch_changes :
    Sustains (World.OnStore (Changes cwd (· <+: Path.place cwd c.dir) (Path.place cwd c.dir <+: ·)))
      (c.fetch remotes text) := by
  obtain ⟨e, d, shape, normal, here, down⟩ := exists_below parsed inward absolute clean cwd
  rw [← here]
  exact fetch_changes_below parsed shape normal down

/-- What comes of a fetch depends on nothing outside the cache. -/
theorem outcome_inside {w w' : World}
    (agree : AgreeAt cwd (Path.place cwd c.dir) (Path.place cwd c.dir) w.store w'.store) :
    c.outcome remotes text w = c.outcome remotes text w' := by
  obtain ⟨e, d, shape, normal, here, down⟩ := exists_below parsed inward absolute clean cwd
  rw [← here] at agree
  apply outcome_agree parsed shape normal
  refine { agree with below := ?_, above := ?_ }
  · exact fun place touched => agree.below place (down.trans touched)
  · intro place up
    rcases up with up | up
    · rcases List.prefix_or_prefix_of_prefix down up with inside | above
      · exact Or.inl (agree.below place inside)
      · exact agree.above place (Or.inl above)
    · exact agree.above place (Or.inl up)

end Inside

/-- The file of a reference lies below its checkout, and no other path is given for it. The checkout lies
below every cache exactly if the reference is inward, as it is without a step up in the ref. A fetch of an
inward reference changes nothing outside the cache, but for directories made on the way there, and its
outcome depends on nothing outside. -/
theorem fetch_stays_in_cache {text : String} {r : Reference} (parsed : Reference.parse text = .ok r) :
    (r.Inward ↔ ∀ c : Cache, Path.isAbsolute c.dir = true → Path.clean c.dir = c.dir →
      IsBelow (c.checkoutPath r.repo r.ref) c.dir) ∧
    (".." ∉ Path.elements r.ref → r.Inward) ∧
    ∀ c : Cache, Path.isAbsolute c.dir = true → Path.clean c.dir = c.dir →
      IsBelow (Path.join [c.checkoutPath r.repo r.ref, r.file]) (c.checkoutPath r.repo r.ref) ∧
      (∀ s path, c.resolve s r = .ok path →
        path = Path.join [c.checkoutPath r.repo r.ref, r.file]) ∧
      (r.Inward → ∀ (remotes : Remotes) (w : World),
        (∀ place, ¬ Path.place w.store.cwd c.dir <+: place →
          ((c.fetch remotes text).run w).2.store.rule place = w.store.rule place ∧
          (((c.fetch remotes text).run w).2.store.get? place = w.store.get? place ∨
            place <+: Path.place w.store.cwd c.dir ∧ w.store.IsFree place ∧
              ((c.fetch remotes text).run w).2.store.get? place = some .directory)) ∧
        ∀ w', AgreeAt w.store.cwd (Path.place w.store.cwd c.dir) (Path.place w.store.cwd c.dir) w.store
            w'.store →
          c.outcome remotes text w = c.outcome remotes text w') := by
  refine ⟨⟨?_, ?_⟩, Reference.inward_of_level parsed, ?_⟩
  · exact fun inward c absolute _ => isBelow_checkoutPath parsed inward absolute
  · intro below
    exact inward_of_isBelow parsed (below ⟨"/a"⟩ (by decide) (by decide))
      (below ⟨"/b"⟩ (by decide) (by decide))
  · intro c absolute clean
    refine ⟨isBelow_file parsed absolute, fun s path found => path_of_resolve found, ?_⟩
    intro inward remotes w
    constructor
    · exact (fetch_changes parsed inward absolute clean w ⟨rfl⟩).2
    · exact fun w' agree => outcome_inside parsed inward absolute clean agree

/-- A ref may lead up as long as it stays among the repositories of its owner. -/
theorem fetch_stays_in_cache_sideways :
    let text := "h.com/o/r/lib/a.dawn@v/../w"
    let c : Cache := ⟨"/home/pkg"⟩
    ".." ∈ Path.elements "v/../w" ∧
    c.checkoutPath "h.com/o/r" "v/../w" = "/home/pkg/h.com/o/w" ∧
    IsBelow "/home/pkg/h.com/o/w" "/home/pkg" ∧
    IsBelow "/home/pkg/h.com/o/w/lib/a.dawn" "/home/pkg/h.com/o/w" ∧
    ∀ remotes : Remotes,
      ((c.fetch remotes text).run ⟨{}, []⟩).2.store.get? ["home", "a.dawn"] = none := by
  intro text c
  have parsed : Reference.parse text = .ok ⟨"h.com/o/r", "lib/a.dawn", "v/../w"⟩ := by decide +kernel
  have checkout : c.checkoutPath "h.com/o/r" "v/../w" = "/home/pkg/h.com/o/w" := by decide +kernel
  have file : Path.join ["/home/pkg/h.com/o/w", "lib/a.dawn"] = "/home/pkg/h.com/o/w/lib/a.dawn" := by
    decide +kernel
  obtain ⟨inward, -, stays⟩ := fetch_stays_in_cache parsed
  have isInward : Reference.Inward ⟨"h.com/o/r", "lib/a.dawn", "v/../w"⟩ := by decide +kernel
  obtain ⟨below, -, inside⟩ := stays c (by decide) (by decide)
  refine ⟨by decide, checkout, ?_, ?_, ?_⟩
  · exact checkout ▸ inward.mp isInward c (by decide) (by decide)
  · simpa only [checkout, file] using below
  · intro remotes
    obtain ⟨unchanged, -⟩ := inside isInward remotes ⟨{}, []⟩
    obtain ⟨-, same | ⟨way, -⟩⟩ := unchanged ["home", "a.dawn"] (by decide +kernel)
    · exact same
    · exact absurd way (by decide +kernel)

/-- A ref with more steps up leads out of the cache: a file beside the cache is taken for a cached one. -/
theorem ref_leads_out_of_cache :
    let text := "h.com/o/r/a.dawn@../../../../../x"
    let c : Cache := ⟨"/home/pkg"⟩
    let store := ({} : Store).insertDeep ["home", "x", "a.dawn"] (.file (Utf8.encode "int x = 1") false)
    Reference.parse text = .ok ⟨"h.com/o/r", "a.dawn", "../../../../../x"⟩ ∧
    c.checkoutPath "h.com/o/r" "../../../../../x" = "/home/x" ∧ ¬ IsBelow "/home/x" "/home/pkg" ∧
    ((c.fetch { clone := fun _ => .error (.plain "repository not found") } text).run ⟨store, []⟩).1.toOption =
      some "/home/x/a.dawn" := by
  refine ⟨?_, ?_, ?_, ?_⟩ <;> decide +kernel

end Cache

end DawnC
