/-
# `MetaRecord.Proofs.Files.Path` — what a path goes through

Two texts can lead to the same place: `out/a`, `out//a` and `out/./a` do.  What
matters of a path is its `route`, which is whether it starts at the root and
the names it goes through.  Joining a name to a path adds it to the route, and
replacing the last name of a path replaces it in the route, however many
slashes and dots stand around it.

Main statements: `route_join` and `route_withName`.
-/
import Mathlib.Data.List.Basic
import MetaRecord.Files.Path

namespace MetaRecord.Files.Path

/-! ## Pieces -/

theorem splitSlashes_eq_splitOn : ∀ cs : List Char, splitSlashes cs = cs.splitOn '/'
  | [] => rfl
  | c :: cs => by
      rw [splitSlashes, splitSlashes_eq_splitOn cs, List.splitOn_cons_eq_if_modifyHead]
      cases hsplit : cs.splitOn '/' with
      | nil => exact absurd hsplit (List.splitOn_ne_nil '/' cs)
      | cons piece pieces => simp

theorem not_mem_of_mem_splitSlashes : ∀ {cs piece : List Char},
    piece ∈ splitSlashes cs → '/' ∉ piece
  | [], piece, h => by
      rw [List.mem_singleton.mp h]
      exact List.not_mem_nil
  | c :: cs, piece, h => by
      rw [splitSlashes] at h
      have ih := fun piece => @not_mem_of_mem_splitSlashes cs piece
      cases hsplit : splitSlashes cs with
      | nil =>
          rw [splitSlashes_eq_splitOn] at hsplit
          exact absurd hsplit (List.splitOn_ne_nil '/' cs)
      | cons first others =>
          rw [hsplit] at h ih
          dsimp only at h
          split at h
          · rcases List.mem_cons.mp h with rfl | h
            · exact List.not_mem_nil
            · exact ih piece h
          · next hc =>
              rcases List.mem_cons.mp h with rfl | h
              · exact fun hmem => (List.mem_cons.mp hmem).elim (fun heq => hc heq.symm)
                  (ih first List.mem_cons_self)
              · exact ih piece (List.mem_cons_of_mem _ h)

theorem not_mem_of_mem_pieces {p : Path} {piece : String} (h : piece ∈ p.pieces) :
    '/' ∉ piece.toList := by
  obtain ⟨cs, hcs, rfl⟩ := List.mem_map.mp h
  rw [String.toList_ofList]
  exact not_mem_of_mem_splitSlashes hcs

theorem pieces_append_slash (a b : String) :
    pieces ⟨a ++ "/" ++ b⟩ = pieces ⟨a⟩ ++ pieces ⟨b⟩ := by
  simp only [pieces, splitSlashes_eq_splitOn, ← List.map_append]
  rw [← List.splitOn_append_cons_self]
  simp

theorem pieces_of_not_mem {name : String} (h : '/' ∉ name.toList) : pieces ⟨name⟩ = [name] := by
  rw [pieces, splitSlashes_eq_splitOn, List.splitOn_eq_singleton h]
  simp

theorem pieces_intercalate {l : List String} (hne : l ≠ []) (h : ∀ piece ∈ l, '/' ∉ piece.toList) :
    pieces ⟨"/".intercalate l⟩ = l := by
  rw [pieces, splitSlashes_eq_splitOn, String.toList_intercalate]
  have hsplit : (['/'].intercalate (l.map String.toList)).splitOn '/' = l.map String.toList :=
    List.splitOn_intercalate '/' (by simpa using h) (by simpa using hne)
  rw [show "/".toList = ['/'] from rfl, hsplit, List.map_map]
  simp

/-- An absolute path starts with an empty piece and a slash behind it. -/
theorem isAbsolute_iff {p : Path} :
    p.isAbsolute = true ↔ ∃ second rest, p.pieces = "" :: second :: rest := by
  rw [isAbsolute, pieces, decide_eq_true_eq]
  cases p.text.toList with
  | nil => simp [splitSlashes]
  | cons c cs =>
      rw [splitSlashes]
      cases hsplit : splitSlashes cs with
      | nil =>
          rw [splitSlashes_eq_splitOn] at hsplit
          exact absurd hsplit (List.splitOn_ne_nil '/' cs)
      | cons first others =>
          by_cases hc : c = '/'
          · simp [hc]
          · simp [hc]

/-! ## Routes -/

/-- What a path goes through: whether it starts at the root, and the names. -/
def route (p : Path) : Bool × List String := (p.isAbsolute, p.names)

/-- The name of an entry in a directory: a single piece, which neither stays
in the directory nor goes back. -/
structure IsEntry (name : String) : Prop where
  single : '/' ∉ name.toList
  moves : isIdle name = false
  deeper : name ≠ ".."

variable {p dir : Path} {name : String}

theorem names_append_slash (a b : String) : names ⟨a ++ "/" ++ b⟩ = names ⟨a⟩ ++ names ⟨b⟩ := by
  rw [names, pieces_append_slash, List.filter_append]
  rfl

theorem names_empty : names ⟨""⟩ = [] := by decide

theorem IsEntry.names (h : IsEntry name) : Path.names ⟨name⟩ = [name] := by
  rw [Path.names, pieces_of_not_mem h.single]
  simp [h.moves]

theorem IsEntry.isAbsolute (h : IsEntry name) : Path.isAbsolute ⟨name⟩ = false := by
  rw [Bool.eq_false_iff, ne_eq, isAbsolute_iff, pieces_of_not_mem h.single]
  simp

theorem isAbsolute_append {a b : String} (h : a ≠ "") :
    Path.isAbsolute ⟨a ++ b⟩ = Path.isAbsolute ⟨a⟩ := by
  have hne : a.toList ≠ [] := by simpa using h
  rw [Path.isAbsolute, Path.isAbsolute, String.toList_append, List.head?_append_of_ne_nil _ hne]

/-- A joined name is one more on the route. -/
theorem route_join (dir : Path) (h : IsEntry name) :
    (dir.join name).route = (dir.isAbsolute, dir.names ++ [name]) := by
  obtain ⟨text⟩ := dir
  rw [join]
  split
  · next hlast =>
      obtain rfl : text = "" := by simpa using hlast
      rw [route, h.names, h.isAbsolute]
      rfl
  · next hlast =>
      obtain ⟨cs, hcs⟩ := List.getLast?_eq_some_iff.mp hlast
      obtain rfl : text = String.ofList cs ++ "/" := by
        rw [← String.toList_inj, hcs]
        simp
      have hdir : names ⟨String.ofList cs ++ "/"⟩ = names ⟨String.ofList cs⟩ := by
        have hslash := names_append_slash (String.ofList cs) ""
        rwa [String.append_empty, names_empty, List.append_nil] at hslash
      rw [route, names_append_slash, isAbsolute_append (by simp), h.names, hdir]
  · next hlast =>
      have hne : text ≠ "" := by
        rintro rfl
        simp at hlast
      rw [route, names_append_slash, String.append_assoc, isAbsolute_append hne, h.names]

/-! ## Parents -/

theorem filter_dropWhile_isIdle : ∀ l : List String,
    (l.dropWhile isIdle).filter (fun piece => !isIdle piece)
      = l.filter fun piece => !isIdle piece
  | [] => rfl
  | piece :: l => by
      rw [List.dropWhile_cons]
      split
      · next hidle => rw [filter_dropWhile_isIdle l, List.filter_cons_of_neg (by simp [hidle])]
      · rfl

/-- Without the last name that does not stay in place, and whatever is behind
it, one name is missing. -/
theorem filter_tail_dropWhile_isIdle (l : List String) :
    ((l.dropWhile isIdle).tail).filter (fun piece => !isIdle piece)
      = (l.filter fun piece => !isIdle piece).tail := by
  rw [← filter_dropWhile_isIdle l]
  cases hdrop : l.dropWhile isIdle with
  | nil => rfl
  | cons piece rest =>
      have hmoves : isIdle piece = false := by
        have := List.head_dropWhile_not isIdle (l := l) (by simp [hdrop])
        simpa [hdrop] using this
      rw [List.filter_cons_of_pos (by simp [hmoves])]
      rfl

/-- The pieces of a parent, after what stands before them. -/
def kept (p : Path) : List String :=
  ((p.body.reverse.dropWhile isIdle).tail.dropWhile isIdle).reverse

/-- The three ways a path can start. -/
theorem lead_cases (p : Path) :
    (p.lead = "/" ∧ p.isAbsolute = true ∧ ∃ rest, p.pieces = "" :: rest) ∨
    (p.lead = "." ∧ p.isAbsolute = false ∧ ∃ rest, p.pieces = "." :: rest) ∨
    (p.lead = "" ∧ p.isAbsolute = false) := by
  rw [lead]
  split
  · next habs =>
      obtain ⟨second, rest, hpieces⟩ := isAbsolute_iff.mp habs
      exact Or.inl ⟨rfl, habs, _, hpieces⟩
  · next habs =>
      have hrel : p.isAbsolute = false := by simpa using habs
      split
      · next hhead => exact Or.inr (Or.inl ⟨rfl, hrel, List.head?_eq_some_iff.mp hhead⟩)
      · exact Or.inr (Or.inr ⟨rfl, hrel⟩)

theorem filter_body (p : Path) : p.body.filter (fun piece => !isIdle piece) = p.names := by
  rw [body, names]
  rcases p.lead_cases with ⟨hlead, -, rest, hpieces⟩ | ⟨hlead, -, rest, hpieces⟩ | ⟨hlead, -⟩
  · rw [hlead, if_neg (by decide), hpieces]
    rfl
  · rw [hlead, if_neg (by decide), hpieces]
    rfl
  · rw [hlead, if_pos rfl]

theorem filter_kept (p : Path) :
    p.kept.filter (fun piece => !isIdle piece) = p.names.dropLast := by
  rw [kept, List.filter_reverse, filter_dropWhile_isIdle, filter_tail_dropWhile_isIdle,
    List.filter_reverse, filter_body, List.tail_reverse, List.reverse_reverse]

theorem kept_prefix (p : Path) : p.kept <+: p.body := by
  rw [← List.reverse_suffix, kept, List.reverse_reverse]
  exact (List.dropWhile_suffix _).trans
    ((List.tail_suffix _).trans (List.dropWhile_suffix _))

theorem not_mem_of_mem_kept {piece : String} (h : piece ∈ p.kept) : '/' ∉ piece.toList := by
  have hbody := p.kept_prefix.subset h
  rw [body] at hbody
  split at hbody
  · exact not_mem_of_mem_pieces hbody
  · exact not_mem_of_mem_pieces (List.mem_of_mem_tail hbody)

theorem names_intercalate {l : List String} (h : ∀ piece ∈ l, '/' ∉ piece.toList) :
    names ⟨"/".intercalate l⟩ = l.filter fun piece => !isIdle piece := by
  cases l with
  | nil => exact names_empty
  | cons piece l => rw [names, pieces_intercalate (by simp) h]

/-- A parent has the same start and one name less. -/
theorem route_parent (p : Path) : p.parent.route = (p.isAbsolute, p.names.dropLast) := by
  have hparent : p.parent = ofPieces p.lead p.kept := rfl
  have hkept : ∀ piece ∈ p.kept, '/' ∉ piece.toList := fun _ => not_mem_of_mem_kept
  rw [hparent, route, ofPieces]
  rcases p.lead_cases with ⟨hlead, habs, -⟩ | ⟨hlead, hrel, -⟩ | ⟨hlead, hrel⟩
  · have htext : "/" ++ "/".intercalate p.kept = "" ++ "/" ++ "/".intercalate p.kept := rfl
    rw [hlead, if_neg (by decide), htext, names_append_slash, names_empty,
      names_intercalate hkept, filter_kept, ← htext, isAbsolute_append (by decide), habs]
    rfl
  · have hdot : ∀ piece ∈ "." :: p.kept, '/' ∉ piece.toList :=
      List.forall_mem_cons.mpr ⟨by decide, hkept⟩
    have hfirst : Path.isAbsolute ⟨"/".intercalate ("." :: p.kept)⟩ = false := by
      rw [Bool.eq_false_iff, ne_eq, isAbsolute_iff, pieces_intercalate (by simp) hdot]
      simp
    rw [hlead, if_pos rfl, names_intercalate hdot, hfirst, hrel,
      List.filter_cons_of_neg (by decide), filter_kept]
  · have hfirst : Path.isAbsolute ⟨"/".intercalate p.kept⟩ = false := by
      rw [Bool.eq_false_iff, ne_eq, isAbsolute_iff]
      rintro ⟨second, rest, hpieces⟩
      -- what is kept is the front of the path, which would start with a slash too
      have hne : p.kept ≠ [] := fun hnil => by
        rw [hnil] at hpieces
        exact absurd (isAbsolute_iff.mpr ⟨second, rest, hpieces⟩) (by decide)
      rw [pieces_intercalate hne hkept] at hpieces
      obtain ⟨more, hmore⟩ := p.kept_prefix
      rw [body, hlead, if_pos rfl, hpieces] at hmore
      exact absurd (isAbsolute_iff.mpr ⟨second, rest ++ more, hmore.symm⟩) (by simp [hrel])
    rw [hlead, if_neg (by decide), String.empty_append, names_intercalate hkept, hfirst, hrel,
      filter_kept]

/-- A replaced name stands in for the last one of the route. -/
theorem route_withName (p : Path) (h : IsEntry name) :
    (p.withName name).route = (p.isAbsolute, p.names.dropLast ++ [name]) := by
  obtain ⟨habs, hnames⟩ := Prod.mk.inj p.route_parent
  rw [withName, route_join _ h, habs, hnames]

end MetaRecord.Files.Path
