import OmegaOS.Vfs

/-!
# Paths in memory

The functions of `libc/string.h` that `normalizePath` takes a path apart with, and `normalizePath` itself, on the bytes of its buffers.
A list of strings stands for `lst`: each node of it holds a copy of its own. A string at an address is read for `n` bytes at most.
-/

namespace OmegaOS

open ByteMem CStr Function

/-- `strchr`, as far as its callers look: whether the byte is in the string, its terminator included. -/
def strchr : Str → BitVec 8 → Bool
  | [], c => c == 0
  | x :: s, c => x == c || strchr s c

/-- `strspn`. -/
def strspn (m : Mem) (s2 : Str) : Nat → Nat → Nat
  | 0, _ => 0
  | n + 1, s1 => if m s1 ≠ 0 ∧ strchr s2 (m s1) then strspn m s2 n (s1 + 1) + 1 else 0

/-- `strcspn`. -/
def strcspn (m : Mem) (s2 : Str) : Nat → Nat → Nat
  | 0, _ => 0
  | n + 1, s1 => if m s1 = 0 then 0 else if strchr s2 (m s1) then 0 else strcspn m s2 n (s1 + 1) + 1

/-- `FS_PATH_SEPERATOR_STR`. -/
def pathSeperatorStr : Str := [pathSeperator]

/-- `strtok` on a buffer, with the pointer `p` that it keeps from call to call. The results are the token, the pointer and the memory. -/
def strtokAt (m : Mem) (p s n : Nat) : Nat × Nat × Mem :=
  let s := if s = null then p else s
  if s = null then (null, p, m)
  else
    let s := s + strspn m pathSeperatorStr n s
    if m s = 0 then (null, null, m)
    else
      let p := s + strcspn m pathSeperatorStr n s
      if m p ≠ 0 then (s, p + 1, update m p 0) else (s, null, m)

/-- A loop over tokens, of which `fuel` are left at most: the strings that it visits. -/
def tokenLoop (n : Nat) : Nat → Nat → Nat → Mem → List Str × Nat × Mem
  | 0, _, p, m => ([], p, m)
  | fuel + 1, token, p, m =>
    if token = null then ([], p, m)
    else
      let item := strAt m token n
      let (token, p, m) := strtokAt m p null n
      let (items, p, m) := tokenLoop n fuel token p m
      (item :: items, p, m)

/-- The tokens of a string that is copied to `dst` first. -/
def tokenize (m : Mem) (p dst : Nat) (s : Str) : List Str × Nat × Mem :=
  let m := strcpy m dst s
  let (token, p, m) := strtokAt m p dst s.length
  tokenLoop s.length s.length token p m

/-- The loop that writes the final path, from `off` on. -/
def assemble (m : Mem) (off : Nat) : List Str → Mem
  | [] => m
  | item :: lst => assemble (strcpy (update m off pathSeperator) (off + 1) item) (off + 1 + item.length) lst

/-- What `kmalloc` and `krealloc` return to `normalizePath`. -/
structure PathBuffers where
  cwdCopy : Nat
  rlpCopy : Nat
  output : Nat
  /-- The output again, when it is to hold the root's path. -/
  root : Nat

/-- `normalizePath` on memory; the results are the pointer to the path, the pointer that `strtok` keeps, and the memory. `krealloc(output, 2)`
is taken to leave the memory but the new block alone, although it copies the whole old block there. -/
def normalizePathAt (b : PathBuffers) (m : Mem) (p : Nat) (cwd path : Str) : Nat × Nat × Mem :=
  let (lst, p, m) := if path ≠ [] ∧ path.head? ≠ some pathSeperator then tokenize m p b.cwdCopy cwd else ([], p, m)
  let (tokens, p, m) := tokenize m p b.rlpCopy path
  let lst := tokens.foldl pushToken lst
  let fSize : Nat := (lst.map fun item => item.length + 1).sum
  if fSize = 0 then (b.root, p, strcpy m b.root [pathSeperator]) else (b.output, p, assemble m b.output lst)

end OmegaOS
