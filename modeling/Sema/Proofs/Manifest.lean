import Mathlib.Data.List.Infix
import Sema.Manifest

/-!
# Which manifest is found

A path leads from where it starts to a file, segment by segment, and each step starts in a
directory. These directories are the `route` of the path. The search for a manifest only goes by
the text of the path: it drops one segment after the other, and so it looks into the directories
of the route, the last one first.

Main statement: the manifest that is found is the last one on the route. If no segment goes up, the
route has the directory of the file and those above it, down from where the path starts; so what
is found is the nearest manifest, if there is one at or below the start. A segment that goes up
makes the route visit directories that are not above the file, and their manifests are found too.
-/

namespace Sema

namespace Node

variable {root : Node} {place d q : List String} {s : String} {a b : List String}

/-- Where one segment leads from a place. -/
def goto (place : List String) (s : String) : List String :=
  if Path.isBlank s then place else if s = ".." then place.dropLast else place ++ [s]

/-- The places that the steps start from, where segments lead on from a place. -/
def stops (place : List String) : List String → List (List String)
  | [] => []
  | s :: r => place :: stops (goto place s) r

theorem stops_append (place a b : List String) :
    stops place (a ++ b) = stops place a ++ stops (a.foldl goto place) b := by
  induction a generalizing place with
  | nil => rfl
  | cons s a ih => simp [stops, ih]

def isDirAt (root : Node) (place : List String) : Bool := ((root.get? place).map isDir).getD false

theorem isSome_of_isDirAt (h : root.isDirAt place = true) : (root.get? place).isSome = true := by
  unfold isDirAt at h
  cases hget : root.get? place with
  | none => simp [hget] at h
  | some n => rfl

theorem walk_nil : root.walk place [] = if (root.get? place).isSome then some place else none := rfl

theorem walk_cons (root : Node) (place : List String) (s : String) (r : List String) :
    root.walk place (s :: r) =
      if root.isDirAt place then root.walk (goto place s) r else none := by
  rw [walk, isDirAt, goto]
  split
  · split
    · rfl
    · split <;> rfl
  · rfl

/-- A way that leads somewhere starts each step in a directory. -/
theorem walk_eq_some : root.walk place a = some q ↔
    (∀ d ∈ stops place a, root.isDirAt d = true) ∧ a.foldl goto place = q ∧
      (root.get? q).isSome = true := by
  induction a generalizing place with
  | nil =>
    rw [walk_nil]
    by_cases h : (root.get? place).isSome = true
    · rw [if_pos h]
      constructor
      · intro heq
        cases heq
        exact ⟨by simp [stops], rfl, h⟩
      · rintro ⟨-, rfl, -⟩
        rfl
    · rw [if_neg h]
      constructor
      · intro heq
        cases heq
      · rintro ⟨-, rfl, hq⟩
        exact absurd hq h
  | cons s a ih =>
    rw [walk_cons]
    by_cases h : root.isDirAt place = true
    · simp [stops, h, ih]
    · simp [stops, h]

/-- The first part of a way leads to where the second starts. -/
theorem walk_append (h : root.walk place a = some d) :
    root.walk place (a ++ b) = root.walk d b := by
  induction a generalizing place with
  | nil =>
    obtain ⟨-, rfl, -⟩ := walk_eq_some.mp h
    rfl
  | cons s a ih =>
    rw [walk_cons] at h
    rw [List.cons_append, walk_cons]
    split at h
    · rw [if_pos ‹_›]
      exact ih h
    · cases h

/-- A way without its last step leads to the directory where that starts. -/
theorem walk_of_append_singleton (h : root.walk place (a ++ [s]) = some q) :
    ∃ d, root.walk place a = some d ∧ root.isDirAt d = true ∧ q = goto d s := by
  obtain ⟨hdirs, hlast, -⟩ := walk_eq_some.mp h
  rw [stops_append, List.forall_mem_append] at hdirs
  have hdir : root.isDirAt (a.foldl goto place) = true := hdirs.2 _ (by simp [stops])
  refine ⟨a.foldl goto place, ?_, hdir, ?_⟩
  · exact walk_eq_some.mpr ⟨hdirs.1, rfl, isSome_of_isDirAt hdir⟩
  · rw [List.foldl_append] at hlast
    exact hlast.symm

theorem get?_append (root : Node) (a b : List String) :
    root.get? (a ++ b) = (root.get? a).bind (get? b) := by
  induction a generalizing root with
  | nil => rfl
  | cons s a ih =>
    rw [List.cons_append, get?, get?, Option.bind_assoc]
    exact congrArg _ (funext fun n => ih n)

/-- Only a directory has something in it. -/
theorem isDirAt_of_append (h : (root.get? (place ++ [s])).isSome = true) :
    root.isDirAt place = true := by
  rw [get?_append] at h
  cases hget : root.get? place with
  | none => simp [hget] at h
  | some n =>
    cases n with
    | file text => simp [hget, get?, child?] at h
    | dir children => simp [isDirAt, hget, isDir]

/-- A step that goes nowhere, or up, leads from a directory to a directory. -/
theorem isDirAt_goto (h : root.isDirAt place = true) (hs : Path.isBlank s = true ∨ s = "..") :
    root.isDirAt (goto place s) = true := by
  unfold goto
  split
  · exact h
  · rw [if_pos (hs.resolve_left ‹_›)]
    rcases List.eq_nil_or_concat place with rfl | ⟨l, x, rfl⟩
    · exact h
    · rw [List.concat_eq_append, List.dropLast_concat]
      rw [List.concat_eq_append] at h
      exact isDirAt_of_append (isSome_of_isDirAt h)

/-- The last segment on the way to a file is the file's name. -/
theorem walk_file {text : String} (h : root.walk place (a ++ [s]) = some q)
    (hfile : root.get? q = some (.file text)) :
    ∃ d, root.walk place a = some d ∧ root.isDirAt d = true ∧ q = d ++ [s] ∧
      Path.isBlank s = false := by
  obtain ⟨d, hd, hdir, rfl⟩ := walk_of_append_singleton h
  have hname : ¬ (Path.isBlank s = true ∨ s = "..") := by
    intro hs
    have hgoto := isDirAt_goto hdir hs
    simp [isDirAt, hfile, isDir] at hgoto
  rw [not_or, Bool.not_eq_true] at hname
  exact ⟨d, hd, hdir, by simp [goto, hname.1, hname.2], hname.1⟩

theorem goto_down (h : s ≠ "..") : goto place s = place ∨ goto place s = place ++ [s] := by
  unfold goto
  split
  · exact .inl rfl
  · exact .inr rfl

theorem prefix_goto (h : s ≠ "..") : place <+: goto place s := by
  rcases goto_down h with heq | heq
  · exact heq ▸ List.prefix_rfl
  · exact heq ▸ List.prefix_append place [s]

/-- There is nothing between the start and the end of a step down. -/
theorem eq_or_prefix_of_goto (h : s ≠ "..") (hd : place <+: d) (hq : d <+: q)
    (hs : goto place s <+: q) : d = place ∨ goto place s <+: d := by
  rcases List.prefix_or_prefix_of_prefix hq hs with hle | hge
  · rcases goto_down h with heq | heq
    · exact .inr (heq ▸ hd)
    · rw [heq] at hle ⊢
      rcases List.prefix_concat_iff.mp hle with rfl | hle
      · exact .inr List.prefix_rfl
      · exact .inl (hle.eq_of_length_le hd.length_le)
  · exact .inr hge

theorem prefix_foldl_goto (h : ".." ∉ a) : place <+: a.foldl goto place := by
  induction a generalizing place with
  | nil => exact List.prefix_rfl
  | cons s a ih =>
    obtain ⟨hup, ha⟩ := List.ne_and_not_mem_of_not_mem_cons h
    exact (prefix_goto hup.symm).trans (ih ha)

/-- Where no segment goes up, the places on the way are all those between its ends. -/
theorem mem_stops (h : ".." ∉ a) : d ∈ stops place a ++ [a.foldl goto place] ↔
    place <+: d ∧ d <+: a.foldl goto place := by
  induction a generalizing place with
  | nil =>
    rw [stops, List.nil_append, List.foldl_nil, List.mem_singleton]
    constructor
    · rintro rfl
      exact ⟨List.prefix_rfl, List.prefix_rfl⟩
    · rintro ⟨hle, hge⟩
      exact hge.eq_of_length_le hle.length_le
  | cons s a ih =>
    obtain ⟨hup, ha⟩ := List.ne_and_not_mem_of_not_mem_cons h
    have hstep : place <+: goto place s := prefix_goto hup.symm
    have hend : goto place s <+: a.foldl goto (goto place s) := prefix_foldl_goto ha
    rw [stops, List.cons_append, List.mem_cons, List.foldl_cons, ih ha]
    constructor
    · rintro (rfl | ⟨hle, hge⟩)
      · exact ⟨List.prefix_rfl, hstep.trans hend⟩
      · exact ⟨hstep.trans hle, hge⟩
    · rintro ⟨hle, hge⟩
      exact (eq_or_prefix_of_goto hup.symm hle hge hend).imp_right fun hs => ⟨hs, hge⟩

/-- They go down. -/
theorem stops_pairwise (h : ".." ∉ a) :
    (stops place a ++ [a.foldl goto place]).Pairwise (· <+: ·) := by
  induction a generalizing place with
  | nil => exact List.pairwise_singleton _ _
  | cons s a ih =>
    obtain ⟨hup, ha⟩ := List.ne_and_not_mem_of_not_mem_cons h
    refine List.pairwise_cons.mpr ⟨fun d hd => ?_, ih ha⟩
    exact (prefix_goto hup.symm).trans ((mem_stops ha).mp hd).1

end Node

namespace Path

/-- The segments that lead from where a path starts. -/
def segments (p : Path) : List String := if p.first = "" then p.rest else p.first :: p.rest

theorem segments_append (first : String) (rest more : List String) :
    segments ⟨first, rest ++ more⟩ = segments ⟨first, rest⟩ ++ more := by
  unfold segments
  split <;> rfl

end Path

namespace FileTree

variable {t : FileTree} {p x : Path} {q d base dir : List String} {text : String}

/-- Where a path starts: at the root if a slash comes first, else at the current directory. -/
def origin (t : FileTree) (p : Path) : List String := if p.first = "" then [] else t.cwd

/-- The directories that a path leads through, from where it starts. -/
def route (t : FileTree) (p : Path) : List (List String) := Node.stops (t.origin p) p.segments

/-- Is there a manifest in the directory? -/
def hasManifest (t : FileTree) (d : List String) : Bool :=
  match t.root.get? (d ++ [Manifest.fileName]) with
  | some (.file _) => true
  | _ => false

theorem resolve_of_ne (t : FileTree) (h : p ≠ .empty) :
    t.resolve p = t.root.walk (t.origin p) p.segments := by
  obtain ⟨first, rest⟩ := p
  by_cases hfirst : first = ""
  · subst hfirst
    have hrest : rest ≠ [] := by
      rintro rfl
      exact h rfl
    simp [resolve, h, origin, Path.segments, Path.isAbsolute, hrest]
  · simp [resolve, h, origin, Path.segments, Path.isAbsolute, hfirst]

/-- The segments of a path lead to a place. -/
def Goes (t : FileTree) (p : Path) (q : List String) : Prop :=
  t.root.walk (t.origin p) p.segments = some q

theorem goes_of_resolve (h : t.resolve p = some q) : p ≠ .empty ∧ t.Goes p q := by
  by_cases hp : p = .empty
  · simp [resolve, hp] at h
  · exact ⟨hp, by rwa [Goes, ← t.resolve_of_ne hp]⟩

namespace Goes

variable {first s : String} {rest : List String}

/-- Without its last segment a path leads to the directory where the last step starts. -/
theorem of_append (h : t.Goes ⟨first, rest ++ [s]⟩ q) :
    ∃ d, t.Goes ⟨first, rest⟩ d ∧ t.root.isDirAt d = true ∧ q = Node.goto d s := by
  unfold Goes at h
  rw [Path.segments_append] at h
  exact Node.walk_of_append_singleton h

theorem route_append (h : t.Goes ⟨first, rest⟩ d) (s : String) :
    t.route ⟨first, rest ++ [s]⟩ = t.route ⟨first, rest⟩ ++ [d] := by
  have hplace := (Node.walk_eq_some.mp h).2.1
  unfold route
  rw [Path.segments_append, Node.stops_append]
  exact congrArg (_ ++ [·]) hplace

/-- A path that does not start at the root starts in a directory. -/
theorem isDirAt_cwd (hfirst : first ≠ "") (h : t.Goes ⟨first, rest⟩ q) :
    t.root.isDirAt t.cwd = true := by
  have hdirs := (Node.walk_eq_some.mp h).1
  have hstart : t.origin ⟨first, rest⟩ = t.cwd := if_neg hfirst
  have hsegs : Path.segments ⟨first, rest⟩ = first :: rest := if_neg hfirst
  rw [hstart, hsegs] at hdirs
  exact hdirs _ (List.mem_cons_self ..)

theorem file (h : t.Goes ⟨first, rest ++ [s]⟩ q) (hfile : t.root.get? q = some (.file text)) :
    ∃ d, t.Goes ⟨first, rest⟩ d ∧ t.root.isDirAt d = true ∧ Path.isBlank s = false := by
  unfold Goes at h
  rw [Path.segments_append] at h
  obtain ⟨d, hd, hdir, -, hblank⟩ := Node.walk_file h hfile
  exact ⟨d, hd, hdir, hblank⟩

end Goes

/-- The path is that of a manifest in the directory `d`, whether there is one or not. -/
def Leads (t : FileTree) (x : Path) (d : List String) : Prop :=
  t.root.isDirAt d = true ∧ t.resolve x = t.root.walk d [Manifest.fileName]

namespace Leads

theorem resolve_eq (h : t.Leads x d) : t.resolve x =
    if (t.root.get? (d ++ [Manifest.fileName])).isSome then some (d ++ [Manifest.fileName])
    else none := by
  have hgoto : Node.goto d Manifest.fileName = d ++ [Manifest.fileName] := by
    have hblank : Path.isBlank Manifest.fileName = false := by decide
    have hup : Manifest.fileName ≠ ".." := by decide
    simp [Node.goto, hblank, hup]
  rw [h.2, Node.walk_cons, if_pos h.1, hgoto, Node.walk_nil]

theorem isFile_look (h : t.Leads x d) : (t.look x).isFile = t.hasManifest d := by
  unfold look hasManifest
  rw [h.resolve_eq]
  cases hget : t.root.get? (d ++ [Manifest.fileName]) with
  | none => rfl
  | some n => cases n <;> simp [hget, Entry.isFile]

theorem resolve_of_hasManifest (h : t.Leads x d) (hm : t.hasManifest d = true) :
    t.resolve x = some (d ++ [Manifest.fileName]) := by
  have hsome : (t.root.get? (d ++ [Manifest.fileName])).isSome = true := by
    unfold hasManifest at hm
    split at hm
    · simp [*]
    · cases hm
  rw [h.resolve_eq, if_pos hsome]

theorem append {first : String} {rest : List String} (hd : t.Goes ⟨first, rest⟩ d)
    (hdir : t.root.isDirAt d = true) : t.Leads ⟨first, rest ++ [Manifest.fileName]⟩ d := by
  refine ⟨hdir, ?_⟩
  rw [t.resolve_of_ne (by simp [Path.empty]), Path.segments_append]
  exact Node.walk_append hd

/-- What does not count at the end of a path does not lead anywhere. -/
theorem trimmed {first : String} {back : List String} (hd : t.Goes ⟨first, back.reverse⟩ d)
    (hdir : t.root.isDirAt d = true) :
    t.Leads ((Path.trimmed first back).join Manifest.fileName) d := by
  induction back with
  | nil =>
    have hjoin : (Path.trimmed first []).join Manifest.fileName =
        ⟨first, [] ++ [Manifest.fileName]⟩ := by
      by_cases hfirst : first = "" <;> simp [Path.trimmed, Path.join, hfirst]
    rw [hjoin]
    exact append hd hdir
  | cons s back ih =>
    rw [List.reverse_cons] at hd
    by_cases hs : Path.isBlank s = true
    · obtain ⟨d', hd', -, rfl⟩ := hd.of_append
      have hsame : Node.goto d' s = d' := by simp [Node.goto, hs]
      have htrim : Path.trimmed first (s :: back) = Path.trimmed first back := by
        simp [Path.trimmed, hs]
      rw [htrim]
      refine ih ?_
      rwa [hsame]
    · have hne : s ≠ "" := by
        rintro rfl
        exact hs rfl
      have hjoin : (Path.trimmed first (s :: back)).join Manifest.fileName =
          ⟨first, (back.reverse ++ [s]) ++ [Manifest.fileName]⟩ := by
        simp [Path.trimmed, Path.join, hs, hne]
      rw [hjoin]
      exact append hd hdir

theorem current (h : t.root.isDirAt t.cwd = true) :
    t.Leads (Path.empty.join Manifest.fileName) t.cwd := by
  refine ⟨h, ?_⟩
  exact t.resolve_of_ne (by simp [Path.empty, Path.join, Manifest.fileName])

end Leads

/-- The search along some paths finds what the search through some directories does. -/
def Finds (t : FileTree) (paths : List Path) (dirs : List (List String)) : Prop :=
  ((Manifest.firstFile t.disk paths).run.map fun x => t.resolve x.1) =
    (dirs.find? t.hasManifest).map fun d => some (d ++ [Manifest.fileName])

namespace Finds

variable {paths : List Path} {dirs : List (List String)}

theorem nil : t.Finds [] [] := rfl

theorem cons (hx : t.Leads x d) (h : t.Finds paths dirs) : t.Finds (x :: paths) (d :: dirs) := by
  have hfirst : (Manifest.firstFile t.disk (x :: paths)).run =
      if (t.look x).isFile then some (x, t.look x)
      else (Manifest.firstFile t.disk paths).run := by
    rw [Manifest.firstFile]
    change (if (t.look x).isFile = true then _ else _ : Option (Path × Entry)) = _
    split <;> rfl
  unfold Finds
  rw [hfirst, hx.isFile_look, List.find?_cons]
  cases hm : t.hasManifest d with
  | true => simp [hx.resolve_of_hasManifest hm]
  | false => exact h

/-- A directory that comes again has been looked into. -/
theorem again (h : t.Finds paths (d :: dirs)) : t.Finds paths (d :: d :: dirs) := by
  have hfind : (d :: d :: dirs).find? t.hasManifest = (d :: dirs).find? t.hasManifest := by
    rw [List.find?_cons]
    cases hm : t.hasManifest d <;> simp [hm]
  unfold Finds
  rw [hfind]
  exact h

/-- A path with one segment that does not start at the root has only the current directory
above it. -/
theorem current {first : String} (hfirst : first ≠ "") (h : t.Goes ⟨first, []⟩ q) :
    t.Finds ((Path.above first []).map (·.join Manifest.fileName))
      (t.route ⟨first, []⟩).reverse := by
  have habove : Path.above first [] = [.empty] := if_neg hfirst
  have hroute : t.route ⟨first, []⟩ = [t.cwd] := by
    simp [route, origin, Path.segments, hfirst, Node.stops]
  rw [habove, hroute]
  exact .cons (.current (h.isDirAt_cwd hfirst)) .nil

/-- The directory that a path denotes and those on the route to it are searched by the path and
those above it. -/
theorem above {first : String} {back : List String} {d : List String}
    (hd : t.Goes ⟨first, back.reverse⟩ d) (hdir : t.root.isDirAt d = true) :
    t.Finds ((Path.trimmed first back :: Path.above first back).map (·.join Manifest.fileName))
      (d :: (t.route ⟨first, back.reverse⟩).reverse) := by
  induction back generalizing d with
  | nil =>
    refine .cons (.trimmed hd hdir) ?_
    by_cases hfirst : first = ""
    · subst hfirst
      exact nil
    · exact current hfirst hd
  | cons s back ih =>
    have hlast := Leads.trimmed hd hdir
    rw [List.reverse_cons] at hd ⊢
    obtain ⟨d', hd', hdir', rfl⟩ := hd.of_append
    have hrest := ih hd' hdir'
    rw [hd'.route_append, List.reverse_concat]
    by_cases hs : Path.isBlank s = true
    · have hsame : Node.goto d' s = d' := by simp [Node.goto, hs]
      have htrim : Path.trimmed first (s :: back) = Path.trimmed first back := by
        simp [Path.trimmed, hs]
      have habove : Path.above first (s :: back) = Path.above first back := by
        simp [Path.above, hs]
      rw [hsame, htrim, habove]
      exact hrest.again
    · have habove : Path.above first (s :: back) =
          Path.trimmed first back :: Path.above first back := by
        simp [Path.above, hs]
      rw [List.map_cons, habove]
      exact .cons hlast hrest

/-- The search for a file goes through the directories on its route, the last one first. -/
theorem file (hp : t.resolve p = some q) (hfile : t.root.get? q = some (.file text)) :
    t.Finds (p.parents.map (·.join Manifest.fileName)) (t.route p).reverse := by
  obtain ⟨hne, hgoes⟩ := goes_of_resolve hp
  obtain ⟨first, rest⟩ := p
  rcases List.eq_nil_or_concat rest with rfl | ⟨init, s, rfl⟩
  · refine current ?_ hgoes
    rintro rfl
    exact hne rfl
  · rw [List.concat_eq_append] at hgoes ⊢
    obtain ⟨d, hd, hdir, hblank⟩ := hgoes.file hfile
    have hback : t.Goes ⟨first, init.reverse.reverse⟩ d := by simpa using hd
    have hall := above hback hdir
    have hparents : Path.parents ⟨first, init ++ [s]⟩ =
        Path.trimmed first init.reverse :: Path.above first init.reverse := by
      simp [Path.parents, Path.above, hblank]
    rw [hd.route_append, List.reverse_concat, hparents]
    simpa using hall

end Finds

/-- The nearest manifest at or above a directory, among those down from `base`. -/
structure Nearest (t : FileTree) (base dir d : List String) : Prop where
  below : base <+: d
  above : d <+: dir
  has : t.hasManifest d = true
  nearest : ∀ e, base <+: e → e <+: dir → t.hasManifest e = true → e <+: d

/-- Of two ranges up from one directory, both with a manifest, the nearest is the same. -/
theorem Nearest.unique {base' d' : List String} (h : t.Nearest base dir d)
    (h' : t.Nearest base' dir d') : d = d' := by
  rcases List.prefix_or_prefix_of_prefix h.above h'.above with hle | hge
  · have hback := h.nearest d' (h.below.trans hle) h'.above h'.has
    exact hle.eq_of_length_le hback.length_le
  · have hback := h'.nearest d (h'.below.trans hge) h.above h.has
    exact (hge.eq_of_length_le hback.length_le).symm

/-- If no segment goes up, the route to a file goes down to the directory of the file. -/
theorem route_of_file (hp : t.resolve p = some q) (hfile : t.root.get? q = some (.file text))
    (hup : ".." ∉ p.segments) :
    (∀ d, d ∈ t.route p ↔ t.origin p <+: d ∧ d <+: q.dropLast) ∧
      (t.route p).Pairwise (· <+: ·) := by
  obtain ⟨hne, hgoes⟩ := goes_of_resolve hp
  have hsegs : p.segments ≠ [] := by
    intro hnil
    obtain ⟨first, rest⟩ := p
    by_cases hfirst : first = ""
    · subst hfirst
      cases (hnil : rest = [])
      exact hne rfl
    · simp [Path.segments, hfirst] at hnil
  obtain ⟨a, s, hlast⟩ := List.eq_nil_or_concat p.segments |>.resolve_left hsegs
  rw [List.concat_eq_append] at hlast
  unfold Goes at hgoes
  unfold route
  rw [hlast] at hgoes hup ⊢
  obtain ⟨d, hd, -, rfl, -⟩ := Node.walk_file hgoes hfile
  have hplace : a.foldl Node.goto (t.origin p) = d := (Node.walk_eq_some.mp hd).2.1
  have ha : ".." ∉ a := fun h => hup (List.mem_append_left _ h)
  have hroute : Node.stops (t.origin p) (a ++ [s]) =
      Node.stops (t.origin p) a ++ [a.foldl Node.goto (t.origin p)] := Node.stops_append _ a [s]
  rw [hroute, List.dropLast_concat]
  exact ⟨fun e => by rw [Node.mem_stops ha, hplace], Node.stops_pairwise ha⟩

/-- Where directories go down, the first manifest from their end is the nearest. -/
theorem nearest_of_find? {dirs : List (List String)}
    (hmem : ∀ d, d ∈ dirs ↔ base <+: d ∧ d <+: dir) (hdown : dirs.Pairwise (· <+: ·))
    (hfind : dirs.reverse.find? t.hasManifest = some d) : t.Nearest base dir d := by
  obtain ⟨hhas, before, behind, hsplit, hnone⟩ := List.find?_eq_some_iff_append.mp hfind
  have hin : d ∈ dirs := List.mem_reverse.mp (List.mem_of_find?_eq_some hfind)
  refine ⟨((hmem d).mp hin).1, ((hmem d).mp hin).2, hhas, fun e hbase hdir he => ?_⟩
  have hup : dirs.reverse.Pairwise fun a b => b <+: a := List.pairwise_reverse.mpr hdown
  have hplace : e ∈ dirs.reverse := List.mem_reverse.mpr ((hmem e).mpr ⟨hbase, hdir⟩)
  rw [hsplit] at hplace hup
  rcases List.mem_append.mp hplace with hbefore | hrest
  · exact absurd he (by simpa using hnone e hbefore)
  · rcases List.mem_cons.mp hrest with rfl | hbehind
    · exact List.prefix_rfl
    · exact (List.pairwise_cons.mp (List.pairwise_append.mp hup).2.1).1 e hbehind

theorem run_find (hp : t.resolve p = some q) (hfile : t.root.get? q = some (.file text)) :
    ((Manifest.find t.disk p).run.map fun x => t.resolve x.1) =
      ((t.route p).reverse.find? t.hasManifest).map fun d => some (d ++ [Manifest.fileName]) := by
  have hlook : (t.look p).isFile = true := by simp [look, hp, hfile, Entry.isFile]
  have hcandidates : Manifest.candidates p (t.look p).isFile =
      p.parents.map (·.join Manifest.fileName) := by
    rw [hlook]
    rfl
  have hfind : (Manifest.find t.disk p).run =
      (Manifest.firstFile t.disk (Manifest.candidates p (t.look p).isFile)).run := rfl
  rw [hfind, hcandidates]
  exact Finds.file hp hfile

/-- What is found for a path that does not go up is the nearest manifest. -/
theorem nearest_of_run_find {m : Path × Entry} (hp : t.resolve p = some q)
    (hfile : t.root.get? q = some (.file text)) (hup : ".." ∉ p.segments)
    (hm : (Manifest.find t.disk p).run = some m) :
    ∃ d, t.Nearest (t.origin p) q.dropLast d ∧
      t.resolve m.1 = some (d ++ [Manifest.fileName]) := by
  obtain ⟨hmem, hdown⟩ := route_of_file hp hfile hup
  have hrun := run_find hp hfile
  rw [hm, Option.map_some, eq_comm, Option.map_eq_some_iff] at hrun
  obtain ⟨d, hd, hplace⟩ := hrun
  exact ⟨d, nearest_of_find? hmem hdown hd, hplace.symm⟩

/-- Something is found for a path that does not go up if there is a manifest that it can reach. -/
theorem isSome_run_find (hp : t.resolve p = some q) (hfile : t.root.get? q = some (.file text))
    (hup : ".." ∉ p.segments) : (Manifest.find t.disk p).run.isSome = true ↔
      ∃ d, t.origin p <+: d ∧ d <+: q.dropLast ∧ t.hasManifest d = true := by
  obtain ⟨hmem, -⟩ := route_of_file hp hfile hup
  have hsome := congrArg Option.isSome (run_find hp hfile)
  rw [Option.isSome_map, Option.isSome_map] at hsome
  rw [hsome, List.find?_isSome]
  simp only [List.mem_reverse, hmem, and_assoc]

end FileTree

open FileTree in
/-- The manifest found for a file is the last one on the route of the path. If no segment goes up,
there is one just when the directory of the file or one above it has a manifest, not above where
the path starts, and it is the nearest; and two such paths to the file that find a manifest find
the same. -/
theorem manifest_last_on_route (t : FileTree) (p : Path) (q : List String) (text : String)
    (denotes : t.resolve p = some q) (file : t.root.get? q = some (.file text)) :
    ((Manifest.find t.disk p).run.map fun m => t.resolve m.1) =
        ((t.route p).reverse.find? t.hasManifest).map (fun d => some (d ++ [Manifest.fileName])) ∧
      (".." ∉ p.segments →
        ((Manifest.find t.disk p).run.isSome = true ↔
          ∃ d, t.origin p <+: d ∧ d <+: q.dropLast ∧ t.hasManifest d = true) ∧
        (∀ m, (Manifest.find t.disk p).run = some m →
          ∃ d, t.Nearest (t.origin p) q.dropLast d ∧
            t.resolve m.1 = some (d ++ [Manifest.fileName])) ∧
        ∀ p' m m', t.resolve p' = some q → ".." ∉ p'.segments →
          (Manifest.find t.disk p).run = some m → (Manifest.find t.disk p').run = some m' →
          t.resolve m.1 = t.resolve m'.1) := by
  refine ⟨run_find denotes file, fun hup => ⟨isSome_run_find denotes file hup,
    fun m hm => nearest_of_run_find denotes file hup hm, ?_⟩⟩
  intro p' m m' denotes' hup' hm hm'
  obtain ⟨d, hd, hplace⟩ := nearest_of_run_find denotes file hup hm
  obtain ⟨d', hd', hplace'⟩ := nearest_of_run_find denotes' file hup' hm'
  rw [hplace, hplace', hd.unique hd']

/-- A directory with a manifest, above the current one with a file and a directory, in which there
is another manifest. -/
def workshop : FileTree where
  root := .dir [("veritas.toml", .file "outer"),
    ("work", .dir [("main.json", .file "main"), ("lib", .dir [("veritas.toml", .file "inner")])])]
  cwd := ["work"]

namespace workshop

def relative : Path := ⟨"main.json", []⟩

def absolute : Path := ⟨"", ["work", "main.json"]⟩

def around : Path := ⟨"lib", ["..", "main.json"]⟩

end workshop

open workshop in
/-- From the root, the manifest above the file is found. -/
theorem workshop_manifest_from_root : workshop.resolve absolute = some ["work", "main.json"] ∧
    ∃ m, (Manifest.find workshop.disk absolute).run = some m ∧
      ∃ d, workshop.Nearest [] ["work"] d ∧
        workshop.resolve m.1 = some (d ++ [Manifest.fileName]) := by
  have hplace : workshop.resolve absolute = some ["work", "main.json"] := by decide
  have hfile : workshop.root.get? ["work", "main.json"] = some (.file "main") := by rfl
  obtain ⟨-, hnearest⟩ := manifest_last_on_route workshop absolute _ _ hplace hfile
  obtain ⟨hsome, hfound, -⟩ := hnearest (by decide)
  obtain ⟨m, hm⟩ := Option.isSome_iff_exists.mp
    (hsome.mpr ⟨[], List.nil_prefix, List.nil_prefix, by decide⟩)
  exact ⟨hplace, m, hm, hfound m hm⟩

open workshop in
/-- One file, by three paths: none of its manifests, the one above it, and one that is in no
directory above it. -/
theorem workshop_manifest_by_path :
    (∀ p ∈ [relative, absolute, around], workshop.resolve p = some ["work", "main.json"]) ∧
      ((Manifest.find workshop.disk relative).run.map fun m => workshop.resolve m.1) = none ∧
      ((Manifest.find workshop.disk absolute).run.map fun m => workshop.resolve m.1) =
        some (some ["veritas.toml"]) ∧
      ((Manifest.find workshop.disk around).run.map fun m => workshop.resolve m.1) =
        some (some ["work", "lib", "veritas.toml"]) := by
  decide

end Sema
