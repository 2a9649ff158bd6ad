/-
# `MetaRecord.Proofs.Files.Lawful` — what is assumed of a file system

The tool is written over the operations of a `System`, and what it does can
only be told where these do what their names say.  `Lawful` is that, as far as
writing and renaming go: the state holds a map from places to files and
directories, a write sets one place or fails and changes nothing, and a rename
moves one file or fails and changes nothing.  Whether an operation fails is
left open, and so is how a path leads to its place, but for two things: only
its route counts, and the entries of one directory are at different places.

Main statement: `Disk.lawful`, by which the files of a `Disk` are an instance.
-/
import Mathlib.Logic.Function.Basic
import MetaRecord.Files.Disk
import MetaRecord.Proofs.Files.Path
import MetaRecord.Proofs.Outcome

namespace MetaRecord.Files

/-- The file operations work on a map from places, which `node` gives and to
which `place` leads. -/
structure Lawful {σ Place : Type} [DecidableEq Place] (fs : System (StateM σ))
    (place : Path → Place) (node : σ → Place → Option Node) : Prop where
  /-- Only the route of a path counts. -/
  place_eq {p q : Path} : p.route = q.route → place p = place q
  /-- The entries of one directory are at different places. -/
  place_join {dir : Path} {a b : String} : Path.IsEntry a → Path.IsEntry b →
    place (dir.join a) = place (dir.join b) → a = b
  write_ok {p : Path} {contents : Bytes} {s s' : σ} :
    (fs.write p contents).run s = (.ok (), s') →
    node s' = Function.update (node s) (place p) (some (.file contents))
  write_error {p : Path} {contents : Bytes} {s s' : σ} {cause : IoError} :
    (fs.write p contents).run s = (.error cause, s') → node s' = node s
  rename_ok {source target : Path} {s s' : σ} :
    (fs.rename source target).run s = (.ok (), s') →
    ∃ contents, node s (place source) = some (.file contents) ∧
      node s' = Function.update (Function.update (node s) (place source) none)
        (place target) (some (.file contents))
  rename_error {source target : Path} {s s' : σ} {cause : IoError} :
    (fs.rename source target).run s = (.error cause, s') → node s' = node s

namespace Disk

/-! ## Places on a disk -/

/-- Where a name leads to from a place, if it leads anywhere. -/
def beyond (place : Location) (name : String) : Location :=
  if name = ".." then (if place = root then root else place.dropLast) else place ++ [name]

/-- Where a path leads to, if it leads anywhere. -/
def location (p : Path) : Location := p.names.foldl beyond (start p)

/-- A name leads on only from a directory, and then as its step goes. -/
theorem lookup_of_enter {d : Disk} {place goal : Location} {name : String}
    (h : d.enter place name = .ok goal) :
    d.lookup place = some .directory ∧ step place name = .ok goal := by
  rw [enter] at h
  split at h
  · exact absurd h (by simp)
  · exact absurd h (by simp)
  · next hplace => exact ⟨hplace, h⟩

theorem enter_eq_ok {d : Disk} {place goal : Location} {name : String}
    (h : d.enter place name = .ok goal) : goal = beyond place name := by
  obtain ⟨-, h⟩ := lookup_of_enter h
  rw [step] at h
  split at h
  · next hback =>
      rw [beyond, if_pos hback]
      exact (Except.ok.inj h).symm
  · next hback =>
      split at h
      · exact absurd h (by simp)
      · rw [beyond, if_neg hback]
        exact (Except.ok.inj h).symm

theorem foldlM_enter_eq_ok {d : Disk} : ∀ {names : List String} {place goal : Location},
    names.foldlM d.enter place = .ok goal → goal = names.foldl beyond place
  | [], _, _, h => (Except.ok.inj h).symm
  | name :: names, place, goal, h => by
      rw [List.foldlM_cons] at h
      obtain ⟨next, hnext, hrest⟩ := bind_eq_ok.mp h
      rw [enter_eq_ok hnext] at hrest
      rw [List.foldl_cons]
      exact foldlM_enter_eq_ok hrest

theorem resolve_eq_ok {d : Disk} {p : Path} {place : Location} (h : d.resolve p = .ok place) :
    place = location p := by
  obtain ⟨-, -, h⟩ := bind_eq_ok.mp h
  exact foldlM_enter_eq_ok h

theorem find_eq_ok {d : Disk} {p : Path} {place : Location} {node : Node}
    (h : d.find p = .ok (place, node)) : place = location p ∧ d.lookup place = some node := by
  obtain ⟨found, hfound, h⟩ := bind_eq_ok.mp h
  obtain rfl := resolve_eq_ok hfound
  split at h
  · exact absurd h throw_ne_ok
  · next hnode =>
      split at h
      · exact absurd h throw_ne_ok
      · obtain ⟨rfl, rfl⟩ := Prod.mk.inj (Except.ok.inj h)
        exact ⟨rfl, hnode⟩
  · next hnode =>
      obtain ⟨rfl, rfl⟩ := Prod.mk.inj (Except.ok.inj h)
      exact ⟨rfl, hnode⟩

theorem location_eq {p q : Path} (h : p.route = q.route) : location p = location q := by
  obtain ⟨habs, hnames⟩ := Prod.mk.inj h
  rw [location, location, start, start, habs, hnames]

theorem location_join (dir : Path) {name : String} (h : Path.IsEntry name) :
    location (dir.join name) = location dir ++ [name] := by
  obtain ⟨habs, hnames⟩ := Prod.mk.inj (Path.route_join dir h)
  rw [location, start, habs, hnames, List.foldl_append, ← start, ← location]
  exact if_neg h.deeper

/-! ## Nodes on a disk -/

/-- Both starting points are directories, so no file operation touches them. -/
theorem not_start_of_lookup {d : Disk} {place : Location}
    (h : d.lookup place ≠ some .directory) : ¬(place = [] ∨ place = root) := fun hstart =>
  h (if_pos hstart)

theorem lookup_erase (d : Disk) {place : Location} (h : d.lookup place ≠ some .directory) :
    (d.erase place).lookup = Function.update d.lookup place none := by
  funext other
  rw [lookup, erase, List.find?_filter]
  by_cases hother : other = place
  · subst hother
    rw [Function.update_self, if_neg (not_start_of_lookup h)]
    simp
  · rw [Function.update_of_ne hother, lookup]
    refine ite_congr rfl (fun _ => rfl) fun _ => ?_
    congr 2
    funext n
    by_cases hn : n.1 = other
    · simp [hn, hother]
    · simp [hn]

theorem lookup_set (d : Disk) {place : Location} (node : Node)
    (h : d.lookup place ≠ some .directory) :
    (d.set place node).lookup = Function.update d.lookup place (some node) := by
  funext other
  by_cases hother : other = place
  · subst hother
    rw [Function.update_self, lookup, if_neg (not_start_of_lookup h), set,
      List.find?_cons_of_pos (by simp)]
    rfl
  · rw [Function.update_of_ne hother, lookup, set,
      List.find?_cons_of_neg (by simpa using Ne.symm hother), ← lookup, d.lookup_erase h,
      Function.update_of_ne hother]

theorem write_eq_ok {d d' : Disk} {p : Path} {contents : Bytes} (h : d.write p contents = .ok d') :
    d'.lookup = Function.update d.lookup (location p) (some (.file contents)) := by
  obtain ⟨place, hplace, h⟩ := bind_eq_ok.mp h
  obtain rfl := resolve_eq_ok hplace
  dsimp only at h
  split at h
  · exact absurd h throw_ne_ok
  · next hfile =>
      obtain rfl := Except.ok.inj h
      rw [Bool.or_eq_true, not_or, decide_eq_true_eq] at hfile
      exact d.lookup_set _ hfile.2

theorem rename_eq_ok {d d' : Disk} {source target : Path} (h : d.rename source target = .ok d') :
    ∃ contents, d.lookup (location source) = some (.file contents) ∧
      d'.lookup = Function.update (Function.update d.lookup (location source) none)
        (location target) (some (.file contents)) := by
  obtain ⟨⟨place, node⟩, hfind, h⟩ := bind_eq_ok.mp h
  obtain ⟨goal, hgoal, h⟩ := bind_eq_ok.mp h
  obtain ⟨rfl, hnode⟩ := find_eq_ok hfind
  obtain rfl := resolve_eq_ok hgoal
  dsimp only at h
  split at h
  · exact absurd h throw_ne_ok
  · next hfile =>
      obtain rfl := Except.ok.inj h
      simp only [Bool.or_eq_true, not_or, decide_eq_true_eq] at hfile
      obtain ⟨⟨hsource, -⟩, htarget⟩ := hfile
      cases node with
      | directory => exact absurd rfl hsource
      | file contents =>
          have hfound : d.lookup (location source) ≠ some .directory := by
            rw [hnode]
            simp
          have herase := d.lookup_erase hfound
          refine ⟨contents, hnode, ?_⟩
          rw [lookup_set, herase]
          rw [herase, Function.update_apply]
          split
          · simp
          · exact htarget

/-! ## The operations -/

theorem run_changing (op : Disk → Except IoError Disk) (d : Disk) :
    (changing op).run d = match op d with
      | .ok changed => (.ok (), changed)
      | .error e => (.error e, d) := rfl

theorem changing_eq_ok {op : Disk → Except IoError Disk} {d d' : Disk}
    (h : (changing op).run d = (.ok (), d')) : op d = .ok d' := by
  rw [run_changing] at h
  split at h
  · next changed hop => rw [hop, (Prod.mk.inj h).2]
  · exact nomatch (Prod.mk.inj h).1

theorem changing_eq_error {op : Disk → Except IoError Disk} {d d' : Disk} {cause : IoError}
    (h : (changing op).run d = (.error cause, d')) : d' = d := by
  rw [run_changing] at h
  split at h
  · exact nomatch (Prod.mk.inj h).1
  · exact (Prod.mk.inj h).2.symm

/-- The files of a disk are a map from places. -/
theorem lawful : Lawful system location lookup where
  place_eq := location_eq
  place_join {dir a b} ha hb h := by
    rw [location_join dir ha, location_join dir hb] at h
    exact List.singleton_inj.mp (List.append_cancel_left h)
  write_ok h := write_eq_ok (changing_eq_ok h)
  write_error h := by rw [changing_eq_error h]
  rename_ok h := rename_eq_ok (changing_eq_ok h)
  rename_error h := by rw [changing_eq_error h]

end Disk

end MetaRecord.Files
