import Mathlib.Data.List.Infix
import Mathlib.Tactic.Common

/-!
# Directory enumeration (`ossPath.cpp`)

A directory is the sequence of its entries in the order of the iterator, every access succeeding.
-/

namespace Novachains.Oss

open List

abbrev Name := { s : List Char // s ≠ [] }

inductive Dir
  | nil
  | file (name : Name) (rest : Dir)
  | dir (name : Name) (sub rest : Dir)
  deriving DecidableEq

inductive Kind
  | file
  | dir
  deriving DecidableEq

/-- The files and directories of the tree, each under its path from the directory. -/
def Dir.nodes : Dir → List (Kind × List Name)
  | nil => []
  | file name rest => (.file, [name]) :: rest.nodes
  | dir name sub rest =>
    (.dir, [name]) :: sub.nodes.map (fun e => (e.1, name :: e.2)) ++ rest.nodes

/-- Those of one kind that lie at most `deep` levels below. -/
def Dir.within (kind : Kind) (deep : ℕ) (d : Dir) : List (List Name) :=
  (d.nodes.filter fun e => e.1 = kind ∧ e.2.length ≤ deep).map Prod.snd

variable {d sub rest : Dir} {kind : Kind} {deep : ℕ} {p : List Name}

theorem Dir.length_pos {e : Kind × List Name} (h : e ∈ d.nodes) : 0 < e.2.length := by
  induction d with grind [nodes]

theorem mem_within : p ∈ d.within kind deep ↔ (kind, p) ∈ d.nodes ∧ p.length ≤ deep := by
  simp [Dir.within]

@[simp] theorem Dir.within_zero : d.within kind 0 = [] := by
  refine eq_nil_iff_forall_not_mem.mpr fun p h => ?_
  obtain ⟨h, h0⟩ := mem_within.mp h
  exact absurd (length_pos h) (by simpa using h0)

theorem Dir.within_file (n : Name) : (file n rest).within kind (deep + 1) =
    (if kind = .file then [[n]] else []) ++ rest.within kind (deep + 1) := by
  cases kind <;> simp [within, nodes]

theorem Dir.within_dir (n : Name) :
    (dir n sub rest).within kind (deep + 1) =
      (if kind = .dir then [[n]] else []) ++ (sub.within kind deep).map (n :: ·) ++
        rest.within kind (deep + 1) := by
  cases kind <;> simp [within, nodes, filter_map, Function.comp_def]

/-- `_ossEnumSubDirs`; only the first branch sets the loop's own `subDir`. -/
def enumSubDirs (parentSubDir : List Char) (deep : ℕ) (subDir : List Char) : Dir → List (List Char)
  | .nil => []
  | .file _ rest => enumSubDirs parentSubDir deep subDir rest
  | .dir name sub rest =>
    if deep = 0 then [] else
    let subDir := if parentSubDir = [] then name.1 else subDir
    subDir :: (if deep > 1 then enumSubDirs subDir (deep - 1) [] sub else []) ++
      enumSubDirs parentSubDir deep subDir rest

/-- The relative paths of the directories below. -/
def ossEnumSubDirs (deep : ℕ) (d : Dir) : List (List Char) := enumSubDirs [] deep [] d

def relativePath (p : List Name) : List Char := intercalate ['/'] (p.map Subtype.val)

/-- The directories at most `deep` levels below, each once under its relative path and before what
it contains. -/
def Dir.ListsSubDirs (deep : ℕ) (d : Dir) (subDirs : List (List Char)) : Prop :=
  ∃ ps : List (List Name), ps.Perm (d.within .dir deep) ∧ subDirs = ps.map relativePath ∧
    ps.Pairwise fun p q => q <+: p → q = p

theorem relativePath_ne_nil (h : 0 < p.length) : relativePath p ≠ [] := by
  obtain ⟨n, q, rfl⟩ := exists_cons_of_length_pos h
  cases q <;> simp [relativePath, intercalate, n.2]

/-- Below the first level the loop pushes its unset `subDir` for the first directory it meets. -/
theorem enumSubDirs_below {parent : List Char} (hp : parent ≠ []) (h0 : deep ≠ 0) (d : Dir) :
    (enumSubDirs parent deep [] d = [] ∧ ∀ p, (Kind.dir, p) ∉ d.nodes) ∨
      [] ∈ enumSubDirs parent deep [] d ∧ ∃ n, (Kind.dir, [n]) ∈ d.nodes := by
  induction d with grind [enumSubDirs, Dir.nodes]

theorem enumSubDirs_cases (deep : ℕ) (subDir : List Char) (d : Dir) :
    (enumSubDirs [] deep subDir d = (d.within .dir deep).map relativePath ∧
        ∀ p ∈ d.within .dir deep, p.length ≤ 1) ∨
      [] ∈ enumSubDirs [] deep subDir d ∧ ∃ p ∈ d.within .dir deep, 1 < p.length := by
  induction d generalizing subDir with
  | nil => simp [enumSubDirs, Dir.within, Dir.nodes]
  | file n rest ih => simpa [enumSubDirs, Dir.within, Dir.nodes] using ih subDir
  | dir n sub rest _ ih =>
    rcases deep with - | deep
    · simp [enumSubDirs]
    rw [Dir.within_dir]
    have hn : relativePath [n] = n.1 := by simp [relativePath]
    have hsub : (deep + 1 > 1 → enumSubDirs n.1 deep [] sub = []) ∧ sub.within .dir deep = [] ∨
        deep + 1 > 1 ∧ [] ∈ enumSubDirs n.1 deep [] sub ∧ ∃ m, [m] ∈ sub.within .dir deep := by
      rcases deep with - | deep
      · simp
      obtain ⟨heq, hno⟩ | ⟨hmem, m, hm⟩ := enumSubDirs_below n.2 deep.succ_ne_zero sub
      · exact .inl ⟨fun _ => heq, eq_nil_iff_forall_not_mem.mpr fun p h => hno p (mem_within.mp h).1⟩
      · exact .inr ⟨by simp, hmem, m, mem_within.mpr ⟨hm, by simp⟩⟩
    obtain ⟨hsub, hnone⟩ | ⟨hdeep, hmem, m, hm⟩ := hsub
    · obtain ⟨heq, hle⟩ | ⟨hmem, q, hq, hlt⟩ := ih n.1
      · exact .inl ⟨by simp_all [enumSubDirs], by simpa [hnone] using hle⟩
      · exact .inr ⟨by simp [enumSubDirs, hmem], q, by simp [hq], hlt⟩
    · exact .inr ⟨by simp_all [enumSubDirs], [n, m], by simp [hm], by simp⟩

theorem not_listsSubDirs_of_nil_mem {l : List (List Char)} (h : [] ∈ l) :
    ¬d.ListsSubDirs deep l := by
  rintro ⟨ps, hperm, rfl, -⟩
  obtain ⟨p, hp, hnil⟩ := mem_map.mp h
  have hp := (mem_within.mp (hperm.mem_iff.mp hp)).1
  exact relativePath_ne_nil (Dir.length_pos hp) hnil

/-- **What the enumeration lists** is right exactly if it finds no directory below the first
level. -/
theorem subDirs_iff (deep : ℕ) (d : Dir) :
    d.ListsSubDirs deep (ossEnumSubDirs deep d) ↔ ∀ p ∈ d.within .dir deep, p.length ≤ 1 := by
  obtain ⟨heq, hle⟩ | ⟨hmem, p, hp, hlt⟩ := enumSubDirs_cases deep [] d
  · refine iff_of_true ⟨_, .refl _, heq, pairwise_of_forall_mem_list ?_⟩ hle
    intro p hp q hq hpre
    exact hpre.eq_of_length_le ((hle p hp).trans (Dir.length_pos (mem_within.mp hq).1))
  · exact iff_of_false (not_listsSubDirs_of_nil_mem hmem) fun h => (h p hp).not_gt hlt

/-- The directory `a/b`, listed as the empty text. -/
theorem subDirs_second_level :
    ossEnumSubDirs 2 (.dir ⟨['a'], nofun⟩ (.dir ⟨['b'], nofun⟩ .nil .nil) .nil) = [['a'], []] ∧
      ¬(Dir.dir ⟨['a'], nofun⟩ (.dir ⟨['b'], nofun⟩ .nil .nil) .nil).ListsSubDirs 2 [['a'], []] :=
  ⟨by decide, not_listsSubDirs_of_nil_mem (by decide)⟩

/-! ## Files -/

inductive MatchType
  | null
  | left
  | mid
  | right
  | all

/-- `ossStrstr`: the rest of the text from the first occurrence on. -/
def strstr (f : List Char) : List Char → Option (List Char)
  | [] => if f = [] then some [] else none
  | c :: cs => if f <+: c :: cs then some (c :: cs) else strstr f cs

/-- The test of `_ossEnumFiles`. -/
def MatchType.accepts (filter fileName : List Char) : MatchType → Bool
  | null => true
  | left => fileName.take filter.length = filter
  | mid => (strstr filter fileName).isSome
  | right => (strstr filter fileName).any fun pFind => pFind.length = filter.length
  | all => fileName = filter

/-- The path of an entry of the directory. -/
def join (dirPath : List Char) (name : Name) : List Char :=
  if dirPath.getLast? = some '/' then dirPath ++ name.1 else dirPath ++ '/' :: name.1

/-- `_ossEnumFiles`. -/
def enumFiles (filter : List Char) (type : MatchType) (dirPath : List Char) (deep : ℕ) :
    Dir → List (List Char × List Char)
  | .nil => []
  | .file name rest =>
    if deep = 0 then [] else
    (if type.accepts filter name.1 then [(name.1, join dirPath name)] else []) ++
      enumFiles filter type dirPath deep rest
  | .dir name sub rest =>
    if deep = 0 then [] else
    (if deep > 1 then enumFiles filter type (join dirPath name) (deep - 1) sub else []) ++
      enumFiles filter type dirPath deep rest

/-- The classification of `ossEnumFiles`. -/
def classify (filter : List Char) : MatchType × List Char :=
  if filter = [] || filter = ['*'] then (.null, [])
  else if filter.head? ≠ some '*' && filter.getLast? ≠ some '*' then (.all, filter)
  else if filter.head? = some '*' && filter.getLast? = some '*' then
    (.mid, (filter.drop 1).take (filter.length - 2))
  else if filter.head? = some '*' then (.right, filter.drop 1)
  else (.left, filter.take (filter.length - 1))

/-- The filter is classified first. -/
def ossEnumFiles (filter dirPath : List Char) (deep : ℕ) (d : Dir) : List (List Char × List Char) :=
  enumFiles (classify filter).2 (classify filter).1 dirPath deep d

/-- A literal text with an optional star before and after it. -/
structure Pattern where
  lead : Bool
  text : List Char
  trail : Bool
  no_star : '*' ∉ text

variable (w : Pattern)

def Pattern.filter : List Char :=
  (if w.lead then ['*'] else []) ++ w.text ++ if w.trail then ['*'] else []

/-- The star stands for any text. -/
def Pattern.Matches (name : List Char) : Prop :=
  if w.lead then if w.trail then w.text <:+: name else w.text <:+ name
  else if w.trail then w.text <+: name else name = w.text

def fileName (p : List Name) : List Char := (p.getLast?.map Subtype.val).getD []

def fileEntry (dirPath : List Char) (p : List Name) : List Char × List Char :=
  (fileName p, p.foldl join dirPath)

open Classical in
/-- The files at most `deep` levels below whose names match. -/
noncomputable def Dir.matching (dirPath : List Char) (deep : ℕ) (d : Dir) :
    List (List Char × List Char) :=
  ((d.within .file deep).filter fun p => w.Matches (fileName p)).map (fileEntry dirPath)

theorem enumFiles_eq (filter dirPath : List Char) (type : MatchType) (deep : ℕ) (d : Dir) :
    enumFiles filter type dirPath deep d =
      ((d.within .file deep).filter fun p => type.accepts filter (fileName p)).map
        (fileEntry dirPath) := by
  induction d generalizing dirPath deep with
  | nil => simp [enumFiles, Dir.within, Dir.nodes]
  | file n rest ih =>
    rcases deep with - | deep
    · simp [enumFiles]
    rw [enumFiles, if_neg deep.succ_ne_zero, ih, Dir.within_file, filter_append, map_append]
    by_cases h : type.accepts filter n.1 <;> simp [h, fileName, fileEntry]
  | dir n sub rest ihs ih =>
    rcases deep with - | deep
    · simp [enumFiles]
    have hsub : (if deep + 1 > 1 then enumFiles filter type (join dirPath n) deep sub else []) =
        enumFiles filter type (join dirPath n) deep sub := by
      rw [ihs]
      cases deep <;> simp
    have hname : ∀ q ∈ sub.within .file deep, fileName (n :: q) = fileName q := by
      intro q hq
      obtain ⟨m, q, rfl⟩ := exists_cons_of_length_pos (Dir.length_pos (mem_within.mp hq).1)
      rfl
    rw [enumFiles, if_neg deep.succ_ne_zero, Nat.add_sub_cancel, hsub, ihs, ih, Dir.within_dir]
    simp only [reduceCtorEq, if_false, nil_append, filter_append, map_append, filter_map, map_map]
    congr 1
    have hfilter := filter_congr (l := sub.within .file deep)
      (p := (fun p => type.accepts filter (fileName p)) ∘ (n :: ·))
      (q := fun q => type.accepts filter (fileName q)) fun q hq => by simp [hname q hq]
    rw [hfilter]
    exact map_congr_left fun q hq => by simp [fileEntry, hname q (mem_filter.mp hq).1]

theorem fileName_ne_nil (hp : p ∈ d.within kind deep) : fileName p ≠ [] := by
  have hpos := Dir.length_pos (mem_within.mp hp).1
  rw [fileName, getLast?_eq_some_getLast (ne_nil_of_length_pos hpos)]
  exact (p.getLast _).2

theorem strstr_isSome (f n : List Char) : (strstr f n).isSome ↔ f <:+: n := by
  induction n with
  | nil => by_cases h : f = [] <;> simp [strstr, h]
  | cons c n ih =>
    rw [strstr, infix_cons_iff]
    split <;> simp_all

/-- The first occurrence is the one at the end. -/
theorem right_accepts (f n : List Char) :
    MatchType.right.accepts f n ↔ f <:+ n ∧ ∀ b, f ++ b <:+ n → b = [] := by
  induction n with
  | nil => by_cases h : f = [] <;> simp [MatchType.accepts, strstr, h]
  | cons c n ih =>
    simp only [MatchType.accepts, strstr, suffix_cons_iff] at ih ⊢
    split
    next h =>
      obtain ⟨b, hb⟩ := h
      constructor
      · intro hlen
        obtain rfl : b = [] := by simpa [← hb] using hlen
        refine ⟨.inl (by simpa using hb), fun b' hb' => ?_⟩
        have := congrArg length hb
        rcases hb' with h | h
        · simpa [← hb] using h
        · have := h.length_le
          grind
      · intro h
        simp [← hb, h.2 b (.inl hb)]
    next h =>
      rw [ih]
      have hne : ∀ b, f ++ b ≠ c :: n := fun b hb => h ⟨b, hb⟩
      have hne' := hne []
      simp_all

theorem classify_filter : classify w.filter =
    if w.text = [] ∧ ¬(w.lead ∧ w.trail) then (.null, [])
    else (if w.lead then if w.trail then .mid else .right else if w.trail then .left else .all,
      w.text) := by
  obtain ⟨lead, text, trail, hstar⟩ := w
  rcases text with - | ⟨c, t⟩
  · cases lead <;> cases trail <;> rfl
  have hhead : c ≠ '*' := by grind
  have hlast : (c :: t).getLast? ≠ some '*' := fun h => hstar (mem_of_getLast? h)
  cases lead <;> cases trail <;> simp [classify, Pattern.filter, hhead, hlast]
  all_goals grind

theorem accepts_iff {name : List Char} (hn : name ≠ []) :
    ((classify w.filter).1.accepts (classify w.filter).2 name ↔ w.Matches name) ↔
      w.filter ≠ [] ∧ (w.lead → ¬w.trail → w.text ≠ [] → w.text <:+ name →
        ∀ b, w.text ++ b <:+ name → b = []) := by
  rw [classify_filter]
  obtain ⟨lead, text, trail, hstar⟩ := w
  have hleft : name.take text.length = text ↔ text <+: name := by
    rw [prefix_iff_eq_take, eq_comm]
  have hmid := strstr_isSome text name
  have hright := right_accepts text name
  simp only [MatchType.accepts] at hright
  rcases eq_or_ne text [] with rfl | h
  · cases lead <;> cases trail <;>
      simp [Pattern.filter, Pattern.Matches, MatchType.accepts, strstr_isSome, hn]
  · cases lead <;> cases trail <;>
      simp [Pattern.filter, Pattern.Matches, MatchType.accepts, hleft, hmid, hright, h]

/-- **What the enumeration finds** is right exactly if the filter is not empty and no file that ends
with the text after the star also has the text before its end. -/
theorem enumFiles_iff (dirPath : List Char) (deep : ℕ) (d : Dir) :
    (ossEnumFiles w.filter dirPath deep d).Perm (d.matching w dirPath deep) ↔
      ∀ p ∈ d.within .file deep, w.filter ≠ [] ∧ (w.lead → ¬w.trail → w.text ≠ [] →
        w.text <:+ fileName p → ∀ b, w.text ++ b <:+ fileName p → b = []) := by
  classical
  simp only [ossEnumFiles, enumFiles_eq, Dir.matching]
  constructor
  · intro h p hp
    refine (accepts_iff w (fileName_ne_nil hp)).mp ?_
    have h := @Perm.mem_iff _ (fileEntry dirPath p) _ _ h
    simp only [mem_map, mem_filter, fileEntry, Prod.mk.injEq, decide_eq_true_eq] at h
    grind
  · intro h
    rw [filter_congr fun p hp => ?_]
    rw [Bool.eq_iff_iff, decide_eq_true_iff]
    exact (accepts_iff w (fileName_ne_nil hp)).mpr (h p hp)

/-- The file `bb`, which `*b` does not find. -/
theorem enumFiles_twice :
    ossEnumFiles ['*', 'b'] ['d'] 1 (.file ⟨['b', 'b'], nofun⟩ .nil) = [] ∧
      ¬Perm [] ((Dir.file ⟨['b', 'b'], nofun⟩ .nil).matching
        ⟨true, ['b'], false, by decide⟩ ['d'] 1) := by
  refine ⟨by decide, fun h => ?_⟩
  have hb : ['b'] <:+ ['b', 'b'] := ⟨['b'], rfl⟩
  have h := h.nil_eq
  simp [Dir.matching, Dir.within, Dir.nodes, fileName, Pattern.Matches, hb] at h

end Novachains.Oss
