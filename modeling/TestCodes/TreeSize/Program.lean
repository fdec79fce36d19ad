import Mathlib.Algebra.BigOperators.Group.List.Basic
import Mathlib.Algebra.Order.BigOperators.Group.List
import Mathlib.Algebra.Ring.Int.Defs

/-! `TreeSize`: the size of a directory with all that is below it, and a tree of the sizes. -/
namespace TestCodes.TreeSize

structure FileInfo where
  length : Int64
  nonneg : 0 ≤ length.toInt

inductive Directory
  | mk (path : String) (files : List FileInfo) (directories : List Directory)

inductive DirInfo
  | mk (dirName : String) (curSize aSize : Int64) (listChild : List DirInfo)

def DirInfo.aSize : DirInfo → Int64
  | .mk _ _ aSize _ => aSize

mutual

/-- `GetDirectoriesSize`; what it appends to is also returned. -/
def getDirectoriesSize : Directory → List DirInfo → Int64 × List DirInfo
  | .mk strCurDir strFiles strDirectories, parentList =>
      let curSize := strFiles.foldl (fun aSize info => aSize + info.length) 0
      let (aSize, listChild) := directoriesLoop strDirectories curSize []
      (aSize, parentList ++ [.mk strCurDir curSize aSize listChild])

def directoriesLoop : List Directory → Int64 → List DirInfo → Int64 × List DirInfo
  | [], aSize, listChild => (aSize, listChild)
  | sDirs :: strDirectories, aSize, listChild =>
      let (size, listChild) := getDirectoriesSize sDirs listChild
      directoriesLoop strDirectories (aSize + size) listChild

end

mutual

def Directory.allFiles : Directory → List FileInfo
  | .mk _ files directories => files ++ allFilesOf directories

def allFilesOf : List Directory → List FileInfo
  | [] => []
  | d :: directories => d.allFiles ++ allFilesOf directories

end

def lengths (files : List FileInfo) : ℤ :=
  (files.map fun f => f.length.toInt).sum

def sizes (infos : List DirInfo) : ℤ :=
  (infos.map fun i => i.aSize.toInt).sum

/-- The tree of the sizes has a node for each directory, in order; what is added up is added
up without overflow. -/
inductive Mirrors : Directory → DirInfo → Prop
  | mk {path : String} {files : List FileInfo} {directories : List Directory}
      {curSize aSize : Int64} {listChild : List DirInfo}
      (cur : curSize.toInt = lengths files)
      (all : aSize.toInt = curSize.toInt + sizes listChild)
      (children : List.Forall₂ Mirrors directories listChild) :
      Mirrors (.mk path files directories) (.mk path curSize aSize listChild)

theorem lengths_nonneg (files : List FileInfo) : 0 ≤ lengths files := by
  apply List.sum_nonneg
  intro n hn
  obtain ⟨f, -, rfl⟩ := List.mem_map.mp hn
  exact f.nonneg

theorem lengths_append (xs ys : List FileInfo) :
    lengths (xs ++ ys) = lengths xs + lengths ys := by
  rw [lengths, List.map_append, List.sum_append]
  rfl

theorem toInt_add_of_fits {x y : Int64} (hx : 0 ≤ x.toInt) (hy : 0 ≤ y.toInt)
    (h : x.toInt + y.toInt < 2 ^ 63) : (x + y).toInt = x.toInt + y.toInt := by
  rw [Int64.toInt_add, Int.bmod_eq_of_le]
  · omega
  · omega

theorem foldl_length (files : List FileInfo) {aSize : Int64} (ha : 0 ≤ aSize.toInt)
    (h : aSize.toInt + lengths files < 2 ^ 63) :
    (files.foldl (fun aSize info => aSize + info.length) aSize).toInt =
      aSize.toInt + lengths files := by
  induction files generalizing aSize with
  | nil => exact (Int.add_zero _).symm
  | cons f files ih =>
      have hsum : lengths (f :: files) = f.length.toInt + lengths files := List.sum_cons
      have hrest := lengths_nonneg files
      have hf := f.nonneg
      have hadd := toInt_add_of_fits ha hf (by omega)
      rw [List.foldl_cons, ih (by omega) (by omega), hadd, hsum]
      omega

mutual

theorem getDirectoriesSize_spec : ∀ (d : Directory) (parentList : List DirInfo),
    lengths d.allFiles < 2 ^ 63 →
      ∃ info, getDirectoriesSize d parentList = (info.aSize, parentList ++ [info]) ∧
        Mirrors d info ∧ info.aSize.toInt = lengths d.allFiles
  | .mk path files directories, parentList => by
      intro h
      rw [Directory.allFiles, lengths_append] at h
      have hown := lengths_nonneg files
      have hbelow := lengths_nonneg (allFilesOf directories)
      have hcur := foldl_length files (by decide : 0 ≤ (0 : Int64).toInt) (by
        change 0 + lengths files < 2 ^ 63
        omega)
      rw [Int64.toInt_zero, Int.zero_add] at hcur
      obtain ⟨aSize, infos, hloop, hmirrors, hsize, hbelow⟩ :=
        directoriesLoop_spec directories _ [] (hcur ▸ hown) (hcur ▸ h)
      refine ⟨.mk path _ aSize infos, ?_, ⟨hcur, ?_, hmirrors⟩, ?_⟩
      · rw [getDirectoriesSize, hloop]
        rfl
      · rw [hsize, hbelow]
      · rw [Directory.allFiles, lengths_append, ← hcur, ← hsize]
        rfl

theorem directoriesLoop_spec : ∀ (directories : List Directory) (aSize : Int64)
    (listChild : List DirInfo), 0 ≤ aSize.toInt →
      aSize.toInt + lengths (allFilesOf directories) < 2 ^ 63 →
      ∃ size infos, directoriesLoop directories aSize listChild = (size, listChild ++ infos) ∧
        List.Forall₂ Mirrors directories infos ∧
        size.toInt = aSize.toInt + lengths (allFilesOf directories) ∧
        sizes infos = lengths (allFilesOf directories)
  | [], aSize, listChild => by
      intro ha h
      refine ⟨aSize, [], ?_, .nil, ?_, rfl⟩
      · rw [directoriesLoop, List.append_nil]
      · exact (Int.add_zero _).symm
  | d :: directories, aSize, listChild => by
      intro ha h
      rw [allFilesOf, lengths_append] at h
      have hfirst := lengths_nonneg d.allFiles
      have hrest := lengths_nonneg (allFilesOf directories)
      obtain ⟨info, hget, hmirrors, hinfo⟩ := getDirectoriesSize_spec d listChild (by omega)
      have hadd : (aSize + info.aSize).toInt = aSize.toInt + lengths d.allFiles := by
        rw [← hinfo]
        exact toInt_add_of_fits ha (by omega) (by omega)
      obtain ⟨size, infos, hloop, hmirrors', hsize, hsizes⟩ :=
        directoriesLoop_spec directories (aSize + info.aSize) (listChild ++ [info])
          (by omega) (by omega)
      refine ⟨size, info :: infos, ?_, .cons hmirrors hmirrors', ?_, ?_⟩
      · rw [directoriesLoop, hget, List.append_cons listChild info infos, ← hloop]
      · rw [allFilesOf, lengths_append, hsize, hadd, Int.add_assoc]
      · rw [allFilesOf, lengths_append, ← hsizes, ← hinfo]
        rfl

end

/-- The size returned is that of all files below, and one tree is appended, which mirrors the
directories. -/
theorem getDirectoriesSize_adds_up {d : Directory} (h : lengths d.allFiles < 2 ^ 63)
    (parentList : List DirInfo) :
    (getDirectoriesSize d parentList).1.toInt = lengths d.allFiles ∧
      ∃ info, (getDirectoriesSize d parentList).2 = parentList ++ [info] ∧ Mirrors d info := by
  obtain ⟨info, hget, hmirrors, hsize⟩ := getDirectoriesSize_spec d parentList h
  rw [hget]
  exact ⟨hsize, info, rfl, hmirrors⟩

def threeFiles : Directory :=
  .mk "C:\\a" [⟨5, by decide⟩, ⟨7, by decide⟩] [.mk "C:\\a\\b" [⟨11, by decide⟩] []]

theorem getDirectoriesSize_threeFiles : lengths threeFiles.allFiles < 2 ^ 63 ∧
    (getDirectoriesSize threeFiles []).1.toInt = lengths threeFiles.allFiles ∧
      ∃ info, (getDirectoriesSize threeFiles []).2 = [] ++ [info] ∧ Mirrors threeFiles info :=
  ⟨by decide, getDirectoriesSize_adds_up (by decide) []⟩

end TestCodes.TreeSize
