-- Files under paths. A path is taken apart at its slashes, so all texts of one path name
-- one file; links and the parent directory are not followed.
import Mathlib.Logic.Function.Basic

structure FilePath where
  absolute : Bool
  components : List (List Char)
  deriving DecidableEq

/-- A name that can stand for a file of a directory. -/
structure IsFileName (name : String) : Prop where
  slash : '/' ∉ name.toList
  empty : name.toList ≠ []
  dot : name.toList ≠ ['.']

namespace FilePath

/-- The parts between the slashes. Empty ones and single dots say nothing. -/
def split (path : List Char) : List (List Char) :=
  (path.splitOn '/').filter fun part => part ≠ [] ∧ part ≠ ['.']

/-- `Path::new`. -/
def new (path : String) : FilePath := ⟨path.toList.head? = some '/', split path.toList⟩

/-- `Path::join` with the name of a file. -/
def join (path name : String) : String :=
  if path.toList = [] ∨ path.toList.getLast? = some '/' then path ++ name
  else path ++ "/" ++ name

/-- A file of a directory. -/
def child (path : FilePath) (name : String) : FilePath :=
  { path with components := path.components ++ [name.toList] }

theorem split_nil : split [] = [] := rfl

theorem split_name {name : String} (h : IsFileName name) : split name.toList = [name.toList] := by
  unfold split
  rw [List.splitOn_eq_singleton h.slash]
  simp [h.empty, h.dot]

theorem split_append_slash (path rest : List Char) :
    split (path ++ '/' :: rest) = split path ++ split rest := by
  unfold split
  rw [List.splitOn_append_cons_self, List.filter_append]

theorem new_join (path : String) {name : String} (h : IsFileName name) :
    new (join path name) = (new path).child name := by
  unfold new join child
  by_cases hempty : path.toList = []
  · have hhead : name.toList.head? ≠ some '/' := fun hslash => h.slash (List.mem_of_head? hslash)
    rw [if_pos (Or.inl hempty), String.toList_append, hempty, List.nil_append, split_name h,
      split_nil]
    simp [hhead]
  · obtain ⟨c, rest, hpath⟩ := List.exists_cons_of_ne_nil hempty
    by_cases hlast : path.toList.getLast? = some '/'
    · obtain ⟨front, hfront⟩ := List.getLast?_eq_some_iff.mp hlast
      have hsplit : split (path.toList ++ name.toList) = split path.toList ++ [name.toList] := by
        rw [hfront, List.append_assoc, List.singleton_append, split_append_slash, split_name h,
          split_append_slash, split_nil, List.append_nil]
      rw [if_pos (Or.inr hlast), String.toList_append, hsplit, hpath]
      rfl
    · have hsplit : split (path.toList ++ "/".toList ++ name.toList) =
          split path.toList ++ [name.toList] := by
        rw [List.append_assoc, show "/".toList = ['/'] from rfl, List.singleton_append,
          split_append_slash, split_name h]
      rw [if_neg (not_or.mpr ⟨hempty, hlast⟩), String.toList_append, String.toList_append, hsplit,
        hpath]
      rfl

theorem child_inj {path path' : FilePath} {name name' : String} :
    path.child name = path'.child name' ↔ path = path' ∧ name = name' := by
  constructor
  · intro h
    obtain ⟨habsolute, hcomponents⟩ := FilePath.mk.inj h
    obtain ⟨hpath, hname⟩ := List.append_inj' hcomponents rfl
    refine ⟨?_, String.toList_inj.mp (List.singleton_inj.mp hname)⟩
    cases path
    cases path'
    cases habsolute
    cases hpath
    rfl
  · rintro ⟨rfl, rfl⟩
    rfl

/-- Files of two names are two files, in whatever directories. -/
theorem new_join_ne (path path' : String) {name name' : String} (h : IsFileName name)
    (h' : IsFileName name') (hne : name ≠ name') :
    new (join path name) ≠ new (join path' name') := by
  rw [new_join path h, new_join path' h']
  exact fun heq => hne (child_inj.mp heq).2

end FilePath

/-- What is written in the files. -/
structure Files where
  contents : FilePath → Option (List UInt8)

namespace Files

def read (files : Files) (path : String) : Option (List UInt8) := files.contents (.new path)

def write (files : Files) (path : String) (text : List UInt8) : Files :=
  ⟨Function.update files.contents (.new path) (some text)⟩

/-- The file of one machine under a path of another one. -/
def copy (files : Files) (path : String) (source : Files) (source_path : String) : Files :=
  ⟨Function.update files.contents (.new path) (source.read source_path)⟩

section Reading

variable {files : Files} {path path' : String}

theorem read_write (text : List UInt8) : (files.write path text).read path = some text :=
  Function.update_self ..

theorem read_write_of_ne (h : FilePath.new path' ≠ FilePath.new path) (text : List UInt8) :
    (files.write path text).read path' = files.read path' :=
  Function.update_of_ne h ..

theorem read_copy (source : Files) : (files.copy path source path').read path = source.read path' :=
  Function.update_self ..

theorem read_copy_of_ne (h : FilePath.new path' ≠ FilePath.new path) (source : Files)
    (source_path : String) : (files.copy path source source_path).read path' = files.read path' :=
  Function.update_of_ne h ..

end Reading

/-! ## Many files -/

section WriteAll

variable {α : Type}

/-- One file after another. -/
def write_all (files : Files) (path : α → String) (text : α → List UInt8) (l : List α) : Files :=
  l.foldl (fun files a => files.write (path a) (text a)) files

variable {path : α → String} {l : List α} {files : Files}

theorem read_write_all_of_ne {path' : String}
    (h : ∀ a ∈ l, FilePath.new path' ≠ FilePath.new (path a)) (text : α → List UInt8) :
    (files.write_all path text l).read path' = files.read path' := by
  induction l generalizing files with
  | nil => rfl
  | cons a l ih =>
    obtain ⟨ha, hl⟩ := List.forall_mem_cons.mp h
    exact (ih hl).trans (read_write_of_ne ha _)

theorem read_write_all (h : l.Pairwise fun a b => FilePath.new (path a) ≠ FilePath.new (path b))
    (text : α → List UInt8) {a : α} (ha : a ∈ l) :
    (files.write_all path text l).read (path a) = some (text a) := by
  induction l generalizing files with
  | nil => cases ha
  | cons b l ih =>
    obtain ⟨hb, hl⟩ := List.pairwise_cons.mp h
    rcases List.mem_cons.mp ha with rfl | ha
    · exact (read_write_all_of_ne hb text).trans (read_write _)
    · exact ih hl ha

end WriteAll

end Files
