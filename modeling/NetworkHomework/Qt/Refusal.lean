import NetworkHomework.Qt.Download
import NetworkHomework.Qt.Transmission

/-!
# Files that cannot be opened

`send_to_file` opens the file and then asks `!exists() && !isOpen()`, so that it gives up only where
both fail. A directory, or a file it has no right to read, exists: `read` on the closed file
delivers nothing, and the block that goes out says that the file is empty. `sendToFile_refuses_iff`
says when that is so, and `readFile_unopened` what the client then does to its own copy.
-/

namespace NetworkHomework.Qt

section Refusal

variable (currentPath : List UInt16) (disk : FileSystem) (filename : QString) (fict size : Nat)

def servedPath : List UInt16 := currentPath ++ [0x2f] ++ filename.data

theorem File.slice_unopened {file : File} (hopens : file.opens = false) (fict size : Nat) :
    file.slice fict size = [] := by
  have hread : ∀ pos count, file.read pos count = [] := by
    intro pos count
    rw [File.read, hopens, if_neg Bool.false_ne_true]
  simp only [File.slice, hread, ite_self]

variable {currentPath disk filename}

theorem fileBlock_served :
    fileBlock currentPath disk filename fict size =
      if filename.size = 0 ∨ ((disk (servedPath currentPath filename)).present = false ∧
          (disk (servedPath currentPath filename)).opens = false) then none
      else some (blockOf (.units (servedPath currentPath filename))
        ((disk (servedPath currentPath filename)).slice fict size)) :=
  fileBlock_eq currentPath disk filename fict size

theorem fileBlock_unopened (hsize : filename.size ≠ 0)
    (hpresent : (disk (servedPath currentPath filename)).present = true)
    (hopens : (disk (servedPath currentPath filename)).opens = false) :
    fileBlock currentPath disk filename fict size =
      some (blockOf (.units (servedPath currentPath filename)) []) := by
  rw [fileBlock_served, if_neg (by simp [hsize, hpresent]), File.slice_unopened hopens]

/-- What `send_to_file` returns without having sent anything is the failure, and only where it has
no block. -/
theorem sendToFile_eq_failure_iff (results : List Int) :
    sendToFile currentPath disk filename fict size results = some (false, []) ↔
      fileBlock currentPath disk filename fict size = none := by
  rw [sendToFile]
  cases fileBlock currentPath disk filename fict size with
  | none => simp
  | some block => simp

/-- **Files that cannot be opened.** Whatever the socket does with what it is offered: if the file
cannot be opened, `send_to_file` returns false and has written nothing, exactly if the name is empty
or there is no such file at all. -/
theorem sendToFile_refuses_iff (results : List Int) :
    ((disk (servedPath currentPath filename)).opens = false →
      sendToFile currentPath disk filename fict size results = some (false, [])) ↔
    (disk (servedPath currentPath filename)).opens = true ∨ filename.size = 0 ∨
      (disk (servedPath currentPath filename)).present = false := by
  cases hopens : (disk (servedPath currentPath filename)).opens with
  | true => simp
  | false =>
      rw [sendToFile_eq_failure_iff, fileBlock_served, hopens]
      simp [or_iff_not_imp_left]

/-- The client that is sent the block of such a file empties its own file of the name. -/
theorem readFile_unopened (hsize : filename.size ≠ 0)
    (hpresent : (disk (servedPath currentPath filename)).present = true)
    (hopens : (disk (servedPath currentPath filename)).opens = false) (clientPath : List UInt16)
    (canOpen : List UInt16 → Bool) (hcan : canOpen (targetPath clientPath filename) = true)
    {block : FileBlock} (hname : block.name = .units (servedPath currentPath filename))
    (c : TcpClient) (hidle : c.blockSize = 0) (hrx : c.reader.rx = block.bytes)
    (hcontent : fileBlock currentPath disk filename fict size = some block.bytes) :
    (c.readFile clientPath canOpen).2.files =
      c.files ++ [(targetPath clientPath filename, [])] := by
  have htarget : targetPath clientPath block.name = targetPath clientPath filename := by
    rw [hname, targetPath, targetPath, QString.data, servedPath, lastSection_append]
  rw [fileBlock_unopened fict size hsize hpresent hopens, FileBlock.bytes, hname] at hcontent
  have hempty : block.content = [] := by
    have hlength := congrArg List.length (Option.some.inj hcontent)
    rw [blockOf, blockOf] at hlength
    simpa using hlength
  rw [readFile_whole clientPath canOpen block c hidle hrx]
  dsimp only
  rw [htarget, if_pos hcan, hempty]

end Refusal

def oneDirectory : FileSystem := fun _ => ⟨true, false, 4096, []⟩

/-- For a directory `d` a block goes out, with the name `/d` and no content. -/
theorem sendToFile_sends_directory :
    ¬ ∀ (currentPath : List UInt16) (disk : FileSystem) (filename : QString) (fict size : Nat) (results : List Int),
      (disk (servedPath currentPath filename)).opens = false →
        sendToFile currentPath disk filename fict size results = some (false, []) := by
  intro h
  exact absurd (h [] oneDirectory (.lit "d") 0 0 [12] rfl) (by decide)

end NetworkHomework.Qt
