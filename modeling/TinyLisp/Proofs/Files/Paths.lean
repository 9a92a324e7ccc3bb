/-
What a joined path consists of.

A file in a folder is named by the cleaned path of both.  Cleaning works on the text
alone and keeps some of the parts; `kept` names them, and `parts_join` takes the
joined path apart again: the parts kept of the folder, and the name.  For that a
name has to be one that a folder can list, which `IsName` says.

Splitting at slashes is the splitting of the library, so taking apart and putting
together are inverse to each other by its lemmas.
-/
import TinyLisp.Files.Basic

namespace TinyLisp

/-! ### The parts of a path -/

theorem Bytes.splitOn_eq (sep : UInt8) (s : Bytes) : Bytes.splitOn sep s = List.splitOn sep s := by
  induction s with
  | nil => rfl
  | cons b rest ih =>
      rw [Bytes.splitOn, ih, List.splitOn_cons_eq_if_modifyHead]
      by_cases h : b = sep
      · simp [h]
      · rw [if_neg h, if_neg (by simpa using h)]
        cases hparts : List.splitOn sep rest with
        | nil => exact absurd hparts (List.splitOn_ne_nil sep rest)
        | cons part parts => rfl

namespace Path

/-- A name that something in a folder can have. -/
structure IsName (name : Bytes) : Prop where
  /-- It is not empty. -/
  nonempty : name ≠ []
  /-- It is not the folder itself. -/
  notHere : name ≠ here
  /-- It is not the folder above. -/
  notAbove : name ≠ above
  /-- It is one part of a path. -/
  noSlash : Byte.slash ∉ name

theorem parts_append_slash (front back : Bytes) :
    parts (front ++ [Byte.slash] ++ back) = parts front ++ parts back := by
  simp only [parts, Bytes.splitOn_eq, List.append_assoc, List.singleton_append]
  exact List.splitOn_append_cons_self front back

theorem parts_name {name : Bytes} (h : Byte.slash ∉ name) : parts name = [name] := by
  rw [parts, Bytes.splitOn_eq, List.splitOn_eq_singleton h]

theorem parts_intercalate {names : List Bytes} (h : ∀ name ∈ names, Byte.slash ∉ name)
    (hne : names ≠ []) : parts (List.intercalate [Byte.slash] names) = names := by
  rw [parts, Bytes.splitOn_eq, List.splitOn_intercalate Byte.slash h hne]

theorem parts_slash_cons (path : Bytes) : parts (Byte.slash :: path) = [] :: parts path := by
  rw [parts, Bytes.splitOn, if_pos rfl]
  rfl

theorem slash_notMem_of_mem_parts (path : Bytes) : ∀ part ∈ parts path, Byte.slash ∉ part := by
  unfold parts
  fun_induction Bytes.splitOn Byte.slash path with
  | case1 => simp
  | case2 rest ih => simpa using ih
  | case3 b rest hb hnil ih => simpa using Ne.symm hb
  | case4 b rest hb first more hparts ih =>
      rw [hparts] at ih
      simpa [Ne.symm hb] using ih

/-! ### The parts that cleaning keeps -/

/-- The parts that cleaning a path keeps, the last one first. -/
def kept (path : Bytes) : List Bytes := (parts path).foldl (cleanStep (isRooted path)) []

theorem cleanStep_skip (rooted : Bool) (kept : List Bytes) {part : Bytes}
    (h : part = [] ∨ part = here) : cleanStep rooted kept part = kept := by
  rcases h with rfl | rfl <;> simp [cleanStep]

theorem cleanStep_name (rooted : Bool) (kept : List Bytes) {part : Bytes} (h : IsName part) :
    cleanStep rooted kept part = part :: kept := by
  simp [cleanStep, h.nonempty, h.notHere, h.notAbove]

theorem cleanStep_above_nil (rooted : Bool) :
    cleanStep rooted [] above = if rooted then [] else [above] := by
  cases rooted with
  | false => decide
  | true => decide

theorem cleanStep_above_cons (rooted : Bool) (last : Bytes) (rest : List Bytes) :
    cleanStep rooted (last :: rest) above =
      if last = above then above :: last :: rest else rest := by
  have hskip : ¬ (above.isEmpty || decide (above = here)) = true := by decide
  simp only [cleanStep, if_neg hskip, if_true]

/-- A part is skipped, is a name or goes up. -/
theorem part_cases {part : Bytes} (h : Byte.slash ∉ part) :
    (part = [] ∨ part = here) ∨ part = above ∨ IsName part := by
  by_cases hskip : part = [] ∨ part = here
  · exact .inl hskip
  · by_cases habove : part = above
    · exact .inr (.inl habove)
    · exact .inr (.inr ⟨fun hc => hskip (.inl hc), fun hc => hskip (.inr hc), habove, h⟩)

/-- A part that stands for itself between slashes. -/
def Solid (part : Bytes) : Prop := part ≠ [] ∧ Byte.slash ∉ part

theorem IsName.solid {name : Bytes} (h : IsName name) : Solid name := ⟨h.nonempty, h.noSlash⟩

theorem solid_above : Solid above := by
  unfold Solid
  decide

theorem solid_cleanStep {rooted : Bool} {kept : List Bytes} {part : Bytes}
    (hkept : ∀ p ∈ kept, Solid p) (hpart : Byte.slash ∉ part) :
    ∀ p ∈ cleanStep rooted kept part, Solid p := by
  rcases part_cases hpart with hskip | rfl | hname
  · rw [cleanStep_skip rooted kept hskip]
    exact hkept
  · cases kept with
    | nil =>
        rw [cleanStep_above_nil]
        split
        · exact hkept
        · exact List.forall_mem_singleton.mpr solid_above
    | cons last rest =>
        rw [cleanStep_above_cons]
        split
        · exact List.forall_mem_cons.mpr ⟨solid_above, hkept⟩
        · exact (List.forall_mem_cons.mp hkept).2
  · rw [cleanStep_name rooted kept hname]
    exact List.forall_mem_cons.mpr ⟨hname.solid, hkept⟩

theorem solid_foldl_cleanStep {rooted : Bool} {parts : List Bytes} :
    ∀ {kept : List Bytes}, (∀ p ∈ kept, Solid p) → (∀ p ∈ parts, Byte.slash ∉ p) →
      ∀ p ∈ parts.foldl (cleanStep rooted) kept, Solid p := by
  induction parts with
  | nil =>
      intro kept hkept _
      exact hkept
  | cons part rest ih =>
      intro kept hkept hparts
      obtain ⟨hpart, hrest⟩ := List.forall_mem_cons.mp hparts
      exact ih (solid_cleanStep hkept hpart) hrest

theorem solid_kept (path : Bytes) : ∀ p ∈ kept path, Solid p :=
  solid_foldl_cleanStep (List.forall_mem_nil _) (slash_notMem_of_mem_parts path)

/-! ### The path of a file in a folder -/

theorem isRooted_append {folder : Bytes} (h : folder ≠ []) (rest : Bytes) :
    isRooted (folder ++ rest) = isRooted folder := by
  cases folder with
  | nil => exact absurd rfl h
  | cons b bytes => rfl

theorem kept_append_name {folder name : Bytes} (hfolder : folder ≠ []) (hname : IsName name) :
    kept (folder ++ [Byte.slash] ++ name) = name :: kept folder := by
  rw [kept, parts_append_slash, parts_name hname.noSlash, List.append_assoc,
    isRooted_append hfolder, List.foldl_append]
  exact cleanStep_name _ _ hname

/-- Parts that stand for themselves make a path that starts with the first of them. -/
theorem isRooted_intercalate {names : List Bytes} (h : ∀ p ∈ names, Solid p) (hne : names ≠ []) :
    isRooted (List.intercalate [Byte.slash] names) = false := by
  have hparts := parts_intercalate (fun p hp => (h p hp).2) hne
  cases hpath : List.intercalate [Byte.slash] names with
  | nil => rfl
  | cons b rest =>
      by_cases hb : b = Byte.slash
      · rw [hpath, hb, parts_slash_cons] at hparts
        exact absurd rfl (h [] (by rw [← hparts]; exact List.mem_cons_self)).1
      · simp [isRooted, hb]

theorem clean_eq {path : Bytes} (h : List.intercalate [Byte.slash] (kept path).reverse ≠ []) :
    clean path = (if isRooted path then [Byte.slash] else []) ++
      List.intercalate [Byte.slash] (kept path).reverse := by
  show (if isRooted path then Byte.slash :: List.intercalate [Byte.slash] (kept path).reverse
    else if (List.intercalate [Byte.slash] (kept path).reverse).isEmpty then here
    else List.intercalate [Byte.slash] (kept path).reverse) = _
  by_cases hrooted : isRooted path = true
  · rw [if_pos hrooted, if_pos hrooted]
    rfl
  · rw [if_neg hrooted, if_neg hrooted, if_neg (by simpa using h)]
    rfl

theorem ne_nil_of_name_mem_parts {path name : Bytes} (hname : IsName name)
    (h : name ∈ parts path) : path ≠ [] := by
  rintro rfl
  exact hname.nonempty (by simpa [parts, Bytes.splitOn] using h)

theorem solid_kept_append (folder : Bytes) {name : Bytes} (hname : IsName name) :
    ∀ p ∈ (kept folder).reverse ++ [name], Solid p := by
  intro p hp
  rcases List.mem_append.mp hp with hp | hp
  · exact solid_kept folder p (List.mem_reverse.mp hp)
  · rw [List.mem_singleton.mp hp]
    exact hname.solid

theorem parts_body (folder : Bytes) {name : Bytes} (hname : IsName name) :
    parts (List.intercalate [Byte.slash] ((kept folder).reverse ++ [name])) =
      (kept folder).reverse ++ [name] :=
  parts_intercalate (fun p hp => (solid_kept_append folder hname p hp).2) (by simp)

section

variable {folder name : Bytes} (hfolder : folder ≠ []) (hname : IsName name)
include hfolder hname

/-- Joining makes the cleaned folder and the name into one path. -/
theorem join_eq : join folder name = (if isRooted folder then [Byte.slash] else []) ++
    List.intercalate [Byte.slash] ((kept folder).reverse ++ [name]) := by
  have hbody : List.intercalate [Byte.slash] ((kept folder).reverse ++ [name]) ≠ [] :=
    ne_nil_of_name_mem_parts hname (by simp [parts_body folder hname])
  have hkept : (kept (folder ++ [Byte.slash] ++ name)).reverse =
      (kept folder).reverse ++ [name] := by
    rw [kept_append_name hfolder hname, List.reverse_cons]
  have hjoin : join folder name = clean (folder ++ [Byte.slash] ++ name) :=
    if_neg (by simpa using hfolder)
  rw [hjoin, clean_eq (by rw [hkept]; exact hbody), hkept, List.append_assoc,
    isRooted_append hfolder]

theorem isRooted_join : isRooted (join folder name) = isRooted folder := by
  rw [join_eq hfolder hname]
  cases hrooted : isRooted folder with
  | true => rfl
  | false => exact isRooted_intercalate (solid_kept_append folder hname) (by simp)

/-- The empty part in front of a rooted path aside, the parts are those kept and the name. -/
theorem parts_join : parts (join folder name) =
    (if isRooted folder then [[]] else []) ++ ((kept folder).reverse ++ [name]) := by
  rw [join_eq hfolder hname]
  cases isRooted folder with
  | true => exact (parts_slash_cons _).trans (congrArg _ (parts_body folder hname))
  | false => exact parts_body folder hname

theorem join_ne_nil : join folder name ≠ [] :=
  ne_nil_of_name_mem_parts hname (by simp [parts_join hfolder hname])

end

end Path

end TinyLisp
