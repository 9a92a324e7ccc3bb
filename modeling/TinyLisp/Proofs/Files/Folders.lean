/-
A file in a folder, however the folder is spelled.

The path of a file is cleaned by its text, while the folder itself is found by
walking the tree part by part.  `Reaches` ties the two together: the parts that
cleaning has kept lead to the folder that the walk has come to.  A double dot takes
the last part back in the text and goes up in the tree, and both end at the same
folder, because a walk goes down into folders only.

So the joined path of a folder and a name leads to that name in that folder
(`resolve_join`), before and after files are written there.
-/
import TinyLisp.Proofs.Files.Paths

namespace TinyLisp.Files

open TinyLisp.Path (IsName)

/-! ### Reading after writing -/

theorem child_ne_root (folder : List Bytes) {name : Bytes} (hname : IsName name) :
    (folder ++ [name] == root) = false := by
  rw [beq_eq_false_iff_ne]
  intro h
  have hlast := congrArg List.getLast? h
  rw [List.getLast?_concat] at hlast
  exact hname.nonempty (Option.some.inj hlast)

theorem isAbove_child (folder : List Bytes) {name : Bytes} (hname : IsName name) :
    isAbove (folder ++ [name]) = false := by
  simp [isAbove, hname.notAbove]

/-- A name in a folder is what the tree has there, never one of the folders always there. -/
theorem get?_child (fs : Files) (folder : List Bytes) {name : Bytes} (hname : IsName name) :
    fs.get? (folder ++ [name]) =
      (fs.find? fun (p, _) => p == folder ++ [name]).map (·.2) := by
  simp [get?, child_ne_root folder hname, isAbove_child folder hname]

/-- An entry is replaced where it stands, or added at the end. -/
theorem find?_put (fs : Files) (path other : List Bytes) (node : Node) :
    ((fs.put path node).find? fun (p, _) => p == other).map (·.2) =
      if other = path then some node else (fs.find? fun (p, _) => p == other).map (·.2) := by
  unfold put
  split
  · rename_i hany
    have hsame : ((fun (p, _) => p == other) ∘ fun ((p, n) : List Bytes × Node) =>
        if p == path then (p, node) else (p, n)) = fun (p, _) => p == other := by
      funext e
      simp only [Function.comp_apply]
      split <;> rfl
    rw [List.find?_map, hsame]
    cases hfind : fs.find? (fun (p, _) => p == other) with
    | none =>
        have hne : other ≠ path := by
          rintro rfl
          obtain ⟨e, he, hpath⟩ := List.any_eq_true.mp hany
          exact List.find?_eq_none.mp hfind e he hpath
        simp [hne]
    | some e =>
        have he : e.1 = other := by simpa using List.find?_some hfind
        by_cases hpath : other = path <;> simp [he, hpath]
  · rename_i hnone
    rw [List.find?_append]
    by_cases hpath : other = path
    · have hfind : fs.find? (fun (p, _) => p == other) = none := by
        rw [List.find?_eq_none]
        intro e he hc
        exact hnone (List.any_eq_true.mpr ⟨e, he, by rw [← hpath]; exact hc⟩)
      rw [hfind, if_pos hpath]
      simp [hpath]
    · have hne : (path == other) = false := by simpa using Ne.symm hpath
      simp [hpath, hne]

theorem get?_put_self (fs : Files) (folder : List Bytes) {name : Bytes} (hname : IsName name)
    (node : Node) : (fs.put (folder ++ [name]) node).get? (folder ++ [name]) = some node := by
  rw [get?_child _ folder hname, find?_put, if_pos rfl]

theorem get?_put_other (fs : Files) {path other : List Bytes} (h : other ≠ path) (node : Node) :
    (fs.put path node).get? other = fs.get? other := by
  unfold get?
  split
  · rfl
  · rw [find?_put, if_neg h]

/-! ### Walks and the parts they keep -/

/-- Following the given parts, the last one first, leads down and up to a folder. -/
inductive Reaches (fs : Files) (start : List Bytes) : List Bytes → List Bytes → Prop where
  /-- Nothing is followed yet. -/
  | start : Reaches fs start [] start
  /-- Into a folder in the folder reached. -/
  | down {kept current : List Bytes} {part : Bytes} (h : Reaches fs start kept current)
      (hpart : IsName part) (hfolder : fs.get? (current ++ [part]) = some .folder) :
      Reaches fs start (part :: kept) (current ++ [part])
  /-- To the folder above the one reached. -/
  | up {kept current : List Bytes} (h : Reaches fs start kept current) :
      Reaches fs start (Path.above :: kept) (up current)

theorem walk_above (fs : Files) (current rest : List Bytes) :
    fs.walk current .folder (Path.above :: rest) = fs.walk (up current) .folder rest := by
  have hskip : ¬ (Path.above.isEmpty || decide (Path.above = Path.here)) = true := by decide
  rw [walk, if_neg hskip, if_pos rfl]

theorem walk_skip (fs : Files) (current rest : List Bytes) {part : Bytes}
    (h : part = [] ∨ part = Path.here) :
    fs.walk current .folder (part :: rest) = fs.walk current .folder rest := by
  have hskip : (part.isEmpty || decide (part = Path.here)) = true := by
    rcases h with rfl | rfl <;> simp
  rw [walk, if_pos hskip]

theorem walk_name (fs : Files) (current rest : List Bytes) {part : Bytes} (h : IsName part) :
    fs.walk current .folder (part :: rest) =
      (fs.get? (current ++ [part])).elim
        (if rest.all List.isEmpty then .vacant current part else .missing)
        fun next => fs.walk (current ++ [part]) next rest := by
  have hskip : ¬ (part.isEmpty || decide (part = Path.here)) = true := by
    simp [h.nonempty, h.notHere]
  rw [walk, if_neg hskip, if_neg h.notAbove]
  cases fs.get? (current ++ [part]) with
  | none => rfl
  | some next => rfl

/-- A walk along the parts kept comes to the folder they reach, and goes on from there. -/
theorem Reaches.walk {fs : Files} {start kept current : List Bytes}
    (h : Reaches fs start kept current) (rest : List Bytes) :
    fs.walk start .folder (kept.reverse ++ rest) = fs.walk current .folder rest := by
  induction h generalizing rest with
  | start => rfl
  | @down kept current part h hpart hfolder ih =>
      rw [List.reverse_cons, List.append_assoc, List.singleton_append, ih, walk_name _ _ _ hpart,
        hfolder, Option.elim_some]
  | up h ih => rw [List.reverse_cons, List.append_assoc, List.singleton_append, ih, walk_above]

/-- Going up takes back the last part. -/
theorem up_child (folder : List Bytes) {name : Bytes} (hname : IsName name) :
    up (folder ++ [name]) = folder := by
  simp [up, child_ne_root folder hname, isAbove_child folder hname]

/-- One step of a walk and of cleaning. -/
theorem Reaches.step {fs : Files} {rooted : Bool} {kept current rest target : List Bytes}
    {part : Bytes} (h : Reaches fs (if rooted then root else []) kept current)
    (hpart : Byte.slash ∉ part)
    (hwalk : fs.walk current .folder (part :: rest) = .found target .folder) :
    ∃ next, Reaches fs (if rooted then root else []) (Path.cleanStep rooted kept part) next ∧
      fs.walk next .folder rest = .found target .folder := by
  rcases Path.part_cases hpart with hskip | rfl | hname
  · rw [Path.cleanStep_skip rooted kept hskip]
    rw [walk_skip fs current rest hskip] at hwalk
    exact ⟨current, h, hwalk⟩
  · rw [walk_above] at hwalk
    refine ⟨Files.up current, ?_, hwalk⟩
    cases h with
    | start =>
        -- above the root there is only the root
        rw [Path.cleanStep_above_nil]
        cases rooted with
        | true => exact .start
        | false => exact .up .start
    | down h hname hfolder =>
        rw [Path.cleanStep_above_cons, if_neg hname.notAbove, up_child _ hname]
        exact h
    | up h =>
        rw [Path.cleanStep_above_cons, if_pos rfl]
        exact .up (.up h)
  · rw [Path.cleanStep_name rooted kept hname]
    rw [walk_name fs current rest hname] at hwalk
    cases hget : fs.get? (current ++ [part]) with
    | none =>
        rw [hget, Option.elim_none] at hwalk
        split at hwalk <;> cases hwalk
    | some node =>
        rw [hget, Option.elim_some] at hwalk
        cases node with
        | file content => cases rest <;> cases hwalk
        | folder => exact ⟨current ++ [part], .down h hname hget, hwalk⟩

theorem Reaches.run {fs : Files} {rooted : Bool} {parts target : List Bytes} :
    ∀ {kept current : List Bytes}, Reaches fs (if rooted then root else []) kept current →
      (∀ part ∈ parts, Byte.slash ∉ part) →
      fs.walk current .folder parts = .found target .folder →
      Reaches fs (if rooted then root else []) (parts.foldl (Path.cleanStep rooted) kept)
        target := by
  induction parts with
  | nil =>
      intro kept current h _ hwalk
      obtain rfl : current = target := by
        rw [Files.walk] at hwalk
        cases hwalk
        rfl
      exact h
  | cons part rest ih =>
      intro kept current h hparts hwalk
      obtain ⟨hpart, hrest⟩ := List.forall_mem_cons.mp hparts
      obtain ⟨next, hnext, hwalk⟩ := h.step hpart hwalk
      exact ih hnext hrest hwalk

/-- The cleaned path of a folder reaches the folder. -/
def Leads (fs : Files) (path : Bytes) (target : List Bytes) : Prop :=
  path ≠ [] ∧ Reaches fs (if Path.isRooted path then root else []) (Path.kept path) target

/-- **A folder that a path names is reached by the parts that cleaning keeps.** -/
theorem leads_of_resolve {fs : Files} {path : Bytes} {target : List Bytes}
    (h : fs.resolve path = .found target .folder) : fs.Leads path target := by
  unfold resolve at h
  by_cases hpath : path = []
  · rw [if_pos (by simpa using hpath)] at h
    cases h
  · rw [if_neg (by simpa using hpath)] at h
    exact ⟨hpath, Reaches.start.run (Path.slash_notMem_of_mem_parts path) h⟩

/-- **The joined path of a folder and a name leads to the name in the folder.** -/
theorem Leads.resolve_join {fs : Files} {folder : Bytes} {target : List Bytes}
    (h : fs.Leads folder target) {name : Bytes} (hname : IsName name) :
    fs.resolve (Path.join folder name) =
      (fs.get? (target ++ [name])).elim (.vacant target name) (.found (target ++ [name])) := by
  obtain ⟨hfolder, hreaches⟩ := h
  have hwalk := hreaches.walk [name]
  rw [walk_name _ _ _ hname] at hwalk
  unfold resolve
  rw [if_neg (by simpa using Path.join_ne_nil hfolder hname), Path.isRooted_join hfolder hname,
    Path.parts_join hfolder hname]
  have hstart : fs.walk (if Path.isRooted folder then root else []) .folder
      ((if Path.isRooted folder then [[]] else []) ++ ((Path.kept folder).reverse ++ [name])) =
      fs.walk (if Path.isRooted folder then root else []) .folder
        ((Path.kept folder).reverse ++ [name]) := by
    cases Path.isRooted folder with
    | true => exact walk_skip fs root _ (.inl rfl)
    | false => rfl
  rw [hstart, hwalk]
  cases fs.get? (target ++ [name]) with
  | none => rfl
  | some node => cases node <;> rfl

/-! ### Files in a folder -/

/-- The path names a folder, and nothing is in it. -/
def IsEmptyFolder (fs : Files) (folder : Bytes) : Prop :=
  fs.stat folder = .ok .folder ∧
    ∀ name, IsName name → fs.stat (Path.join folder name) = .error .notFound

section

variable {fs : Files} {folder name : Bytes} {target : List Bytes}

theorem Leads.stat_join (h : fs.Leads folder target) (hname : IsName name) :
    fs.stat (Path.join folder name) =
      (fs.get? (target ++ [name])).elim (.error .notFound) .ok := by
  rw [stat, h.resolve_join hname]
  cases fs.get? (target ++ [name]) with
  | none => rfl
  | some node => rfl

/-- A file is written where its folder is. -/
theorem Leads.write_join (h : fs.Leads folder target) (hname : IsName name)
    (hfree : fs.get? (target ++ [name]) ≠ some .folder) (content : Bytes) :
    fs.write (Path.join folder name) content =
      .ok (fs.put (target ++ [name]) (.file content)) := by
  rw [write, place, h.resolve_join hname]
  cases hget : fs.get? (target ++ [name]) with
  | none => rfl
  | some node =>
      cases node with
      | file old => rfl
      | folder => exact absurd hget hfree

theorem Reaches.put {start kept current path : List Bytes} (h : Reaches fs start kept current)
    (hfree : fs.get? path ≠ some .folder) (node : Node) :
    Reaches (fs.put path node) start kept current := by
  induction h with
  | start => exact .start
  | @down kept current part h hpart hfolder ih =>
      -- the folders on the way are not what was put
      have hne : current ++ [part] ≠ path := fun hc => hfree (by rw [← hc]; exact hfolder)
      exact ih.down hpart (by rw [get?_put_other fs hne]; exact hfolder)
  | up h ih => exact ih.up

theorem Leads.put {path : List Bytes} (h : fs.Leads folder target)
    (hfree : fs.get? path ≠ some .folder) (node : Node) : (fs.put path node).Leads folder target :=
  ⟨h.1, h.2.put hfree node⟩

theorem IsEmptyFolder.leads (h : fs.IsEmptyFolder folder) :
    ∃ target, fs.Leads folder target ∧
      ∀ name, IsName name → fs.get? (target ++ [name]) = none := by
  obtain ⟨hfolder, hnone⟩ := h
  unfold stat at hfolder
  split at hfolder
  · rename_i target node hresolve
    obtain rfl : node = .folder := by
      cases hfolder
      rfl
    have hleads := leads_of_resolve hresolve
    refine ⟨target, hleads, ?_⟩
    intro name hname
    have hstat := hnone name hname
    rw [hleads.stat_join hname] at hstat
    cases hget : fs.get? (target ++ [name]) with
    | none => rfl
    | some node =>
        rw [hget] at hstat
        cases hstat
  · cases hfolder
  · cases hfolder

end

end TinyLisp.Files
