import Ece344Lab.Webserver.Common
import Mathlib.Algebra.BigOperators.Group.List.Basic
import Mathlib.Data.List.Nodup
import Mathlib.Logic.Function.Basic

/-!
# The file cache of the web server

`struct hashtable`: bucket chains of entries and the list from the least to the most recently used
file. A `struct file_data` is named by its address; the addresses are natural numbers handed out
in order. An entry that was freed stays in the chain that still points to it, with a mark, and
every access to it is a fault.
-/
namespace Ece344Lab.Webserver

structure FileData where
  file_name : Bytes
  file_buf : Bytes
  file_size : Int
  deriving DecidableEq

/-- The `file_data` at each address. -/
abbrev Files := Nat → FileData

/-- `struct entry` of a bucket chain, less its unused `count`. -/
structure Entry where
  data : Nat
  freed : Bool
  deriving DecidableEq

/-- `struct hashtable`, less its lock. `LRU` is the list of the files of its entries. -/
structure Hashtable where
  cache_size : Int
  available_cache_size : Int
  LRU : List Nat
  table : Nat → List Entry

/-- Where the C program's behaviour is undefined, and where it exits. -/
inductive Fault where
  | freedEntry
  | nullEntry
  | bufferOverflow
  | exit
  deriving DecidableEq

/-- The loop of `hash`; a `char` is signed. -/
def hashFrom (h : UInt64) : Bytes → UInt64
  | [] => h
  | c :: str => hashFrom ((h <<< 5) + h + c.toInt8.toInt64.toUInt64) str

def hash (str : Bytes) : Nat := (hashFrom 5381 str).toNat % 10000000

/-- `update_LRU`: the list after a use of `file`. -/
def updateLRU (file : Nat) : List Nat → List Nat
  | [] => [file]
  | [e] => if e ≠ file then [e, file] else [e]
  | e :: rest =>
    if file ∈ e :: rest then
      if e = file then rest ++ [e] else (e :: rest).erase file ++ [file]
    else (e :: rest) ++ [file]

/-- The loop of `cache_lookup`. -/
def findName (files : Files) (name : Bytes) : List Entry → Except Fault (Option Nat)
  | [] => .ok none
  | e :: rest =>
    if e.freed then .error .freedEntry
    else if (files e.data).file_name = name then .ok (some e.data)
    else findName files name rest

/-- `cache_lookup(file, time)` for a file of the given name. -/
def cacheLookup (files : Files) (ht : Hashtable) (name : Bytes) (time : Nat) :
    Except Fault (Option Nat × Hashtable) :=
  match findName files name (ht.table (hash name)) with
  | .error fault => .error fault
  | .ok none => .ok (none, ht)
  | .ok (some file) =>
    .ok (some file, if time = 0 then { ht with LRU := updateLRU file ht.LRU } else ht)

/-- The walk of `cache_insert_ht` to the end of a chain. -/
def appendEntry (new : Entry) : List Entry → Except Fault (List Entry)
  | [] => .ok [new]
  | e :: rest =>
    if e.freed then .error .freedEntry
    else match appendEntry new rest with
      | .error fault => .error fault
      | .ok chain => .ok (e :: chain)

def cacheInsertHt (files : Files) (ht : Hashtable) (file : Nat) : Except Fault Hashtable :=
  let h := hash (files file).file_name
  match appendEntry ⟨file, false⟩ (ht.table h) with
  | .error fault => .error fault
  | .ok chain => .ok { ht with
      table := Function.update ht.table h chain
      available_cache_size := ht.available_cache_size - (files file).file_size
      LRU := updateLRU file ht.LRU }

/-- The loop of `delete_entry` behind the first entry of a chain. -/
def unlinkBehind (file : Nat) : List Entry → Except Fault (List Entry)
  | [] => .error .nullEntry
  | e :: rest =>
    if e.freed then .error .freedEntry
    else if e.data = file then .ok rest
    else match unlinkBehind file rest with
      | .error fault => .error fault
      | .ok chain => .ok (e :: chain)

/-- `delete_entry` on a chain. With `prev == temp` the first of several entries is freed without
being unlinked. -/
def deleteFrom (file : Nat) : List Entry → Except Fault (List Entry)
  | [] => .error .nullEntry
  | e :: rest =>
    if e.freed then .error .freedEntry
    else if rest = [] then .ok []
    else if e.data = file then .ok ({ e with freed := true } :: rest)
    else match unlinkBehind file rest with
      | .error fault => .error fault
      | .ok chain => .ok (e :: chain)

def deleteEntry (files : Files) (ht : Hashtable) (file : Nat) : Except Fault Hashtable :=
  let h := hash (files file).file_name
  match deleteFrom file (ht.table h) with
  | .error fault => .error fault
  | .ok chain => .ok { ht with table := Function.update ht.table h chain }

/-- The loop of `cache_evict`, over the `LRU` list that it consumes. -/
def evictFrom (files : Files) (size_to_evict : Int) : List Nat → Hashtable → Except Fault Hashtable
  | [], ht => if ht.available_cache_size < size_to_evict then .error .nullEntry else .ok ht
  | to_evict :: rest, ht =>
    if ht.available_cache_size < size_to_evict then
      match deleteEntry files { ht with
          available_cache_size := ht.available_cache_size + (files to_evict).file_size
          LRU := rest } to_evict with
      | .error fault => .error fault
      | .ok ht' => evictFrom files size_to_evict rest ht'
    else .ok ht

def cacheEvict (files : Files) (ht : Hashtable) (size_to_evict : Int) : Except Fault Hashtable :=
  evictFrom files size_to_evict ht.LRU ht

/-- `cache_insert`; `file_size > 0.5 * cache_size` in whole numbers. -/
def cacheInsert (files : Files) (ht : Hashtable) (file : Nat) : Except Fault Hashtable :=
  if ht.cache_size < 2 * (files file).file_size then .ok ht
  else if ht.available_cache_size < (files file).file_size then
    match cacheEvict files ht (files file).file_size with
    | .error fault => .error fault
    | .ok ht' => cacheInsertHt files ht' file
  else cacheInsertHt files ht file

/-- The second locked section of `do_server_request`. -/
def insertSection (files : Files) (ht : Hashtable) (file : Nat) : Except Fault Hashtable :=
  match cacheLookup files ht (files file).file_name 1 with
  | .error fault => .error fault
  | .ok (some _, ht') => .ok ht'
  | .ok (none, ht') => cacheInsert files ht' file

/-- The cache as `server_init` makes it. -/
def cacheInit (max_cache_size : Int) : Hashtable := ⟨max_cache_size, max_cache_size, [], fun _ => []⟩

section Equations

variable {files : Files} {ht : Hashtable} {file : Nat} {chain : List Entry}

theorem cacheInsertHt_ok
    (h : appendEntry ⟨file, false⟩ (ht.table (hash (files file).file_name)) = .ok chain) :
    cacheInsertHt files ht file = .ok { ht with
      table := Function.update ht.table (hash (files file).file_name) chain
      available_cache_size := ht.available_cache_size - (files file).file_size
      LRU := updateLRU file ht.LRU } := by
  simp only [cacheInsertHt, h]

theorem deleteEntry_ok
    (h : deleteFrom file (ht.table (hash (files file).file_name)) = .ok chain) :
    deleteEntry files ht file = .ok { ht with
      table := Function.update ht.table (hash (files file).file_name) chain } := by
  simp only [deleteEntry, h]

end Equations

section UpdateLRU

variable {file p : Nat} {l : List Nat}

theorem updateLRU_of_mem (nodup : l.Nodup) (h : file ∈ l) :
    updateLRU file l = l.erase file ++ [file] := by
  match l with
  | [e] => obtain rfl : file = e := by simpa using h
           simp [updateLRU]
  | e :: e' :: rest =>
    rw [updateLRU, if_pos h]
    split
    case isTrue heq => subst heq; simp
    case isFalse => rfl
    · intro h; cases h

theorem updateLRU_of_notMem (h : file ∉ l) : updateLRU file l = l ++ [file] := by
  match l with
  | [] => rfl
  | [e] => simp only [List.mem_singleton] at h; simp [updateLRU, Ne.symm h]
  | e :: e' :: rest =>
    rw [updateLRU, if_neg h]
    intro h; cases h

/-- A use of a listed file permutes the list. -/
theorem updateLRU_perm (nodup : l.Nodup) (h : file ∈ l) : (updateLRU file l).Perm l := by
  rw [updateLRU_of_mem nodup h]
  exact (List.perm_append_singleton _ _).trans (List.perm_cons_erase h).symm

end UpdateLRU

end Ece344Lab.Webserver
