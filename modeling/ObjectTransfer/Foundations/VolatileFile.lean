import ObjectTransfer.Foundations.Words

/-! # Files whose last bytes may be lost

A file knows how many of its bytes are on the disk for certain. A crash keeps those and any number
of the bytes behind them.
-/

namespace ObjectTransfer.Foundations

structure VolatileFile where
  content : Bytes
  synced : ℕ
  synced_le : synced ≤ content.length
  deriving DecidableEq

namespace VolatileFile

variable (file : VolatileFile)

def empty : VolatileFile := ⟨[], 0, Nat.le_refl _⟩

/-- A file that was written and synced as a whole. -/
def durable (content : Bytes) : VolatileFile := ⟨content, content.length, Nat.le_refl _⟩

def append (bytes : Bytes) : VolatileFile where
  content := file.content ++ bytes
  synced := file.synced
  synced_le := by
    rw [List.length_append]
    exact file.synced_le.trans (Nat.le_add_right _ _)

def sync : VolatileFile := durable file.content

/-- Cut the file; what is behind the cut is gone at once. -/
def setLen (length : ℕ) : VolatileFile where
  content := file.content.take length
  synced := min file.synced length
  synced_le := by
    have h := file.synced_le
    rw [List.length_take]
    omega

/-- What a crash leaves of the file, which is then on the disk. -/
def crash (keep : ℕ) : VolatileFile := durable (file.content.take (max keep file.synced))

@[simp] theorem append_content (bytes : Bytes) :
    (file.append bytes).content = file.content ++ bytes := rfl

@[simp] theorem sync_content : file.sync.content = file.content := rfl

@[simp] theorem sync_synced : file.sync.synced = file.content.length := rfl

@[simp] theorem setLen_content (length : ℕ) :
    (file.setLen length).content = file.content.take length := rfl

@[simp] theorem crash_content (keep : ℕ) :
    (file.crash keep).content = file.content.take (max keep file.synced) := rfl

@[simp] theorem crash_synced (keep : ℕ) :
    (file.crash keep).synced = (file.crash keep).content.length := rfl

end VolatileFile

end ObjectTransfer.Foundations
