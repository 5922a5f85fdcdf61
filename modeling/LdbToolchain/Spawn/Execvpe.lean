import LdbToolchain.Spawn.Kernel

/-!
# `__execvpe`

The PATH search of `glibc-compatibility.c`. A pointer into the `PATH` string is the rest of the
string from there on. The candidate path is put together in a stack buffer, byte for byte as the
source does it, and read back as a C string by `execve`.
-/

namespace LdbToolchain.Spawn

def slash : UInt8 := 47
def colon : UInt8 := 58

def NAME_MAX : Nat := 255
def PATH_MAX : Nat := 4096

/-- `"/usr/local/bin:/bin:/usr/bin"`. -/
def defaultPath : CString where
  bytes := [47, 117, 115, 114, 47, 108, 111, 99, 97, 108, 47, 98, 105, 110, 58, 47, 98, 105, 110,
    58, 47, 117, 115, 114, 47, 98, 105, 110]
  nonul := by decide

/-- `__strchrnul(s, c)` for a `c` other than 0: the rest of `s` from the first `c` on. -/
def strchrnul (s : List UInt8) (c : UInt8) : List UInt8 := s.dropWhile (· ≠ c)

/-- `memcpy(b + i, bs, len)`. -/
def poke (b : List UInt8) (i : Nat) (bs : List UInt8) : List UInt8 :=
  b.take i ++ bs ++ b.drop (i + bs.length)

/-- The buffer `b` after the candidate for the element `[p, z)` has been written to it. -/
def candidateBuffer (b : List UInt8) (element : List UInt8) (file : CString) : List UInt8 :=
  let b := poke b 0 element
  let b := poke b element.length [slash]
  poke b (element.length + if element.length > 0 then 1 else 0) (file.bytes ++ [0])

/-- The stale bytes of `char b[n]`. -/
def stackBuffer (k : Kernel) (n : Nat) : List UInt8 := (List.range n).map k.stale

/-- The errors after which the search goes on. -/
def keepsSearching (errno : Int) : Bool :=
  errno = Errno.EACCES.val ∨ errno = Errno.ENOENT.val ∨ errno = Errno.ENOTDIR.val

/-- Leaving the loop: `if (seen_eacces) errno = EACCES; return -1;` -/
def searchFailed (seenEacces : Bool) (c : Child) : ExecResult :=
  .returned { c with errno := if seenEacces then Errno.EACCES.val else c.errno }

theorem length_tail_strchrnul {p : List UInt8} {z : List UInt8} {c a : UInt8}
    (h : strchrnul p c = a :: z) : z.length < p.length := by
  have hle : (p.dropWhile (· ≠ c)).length ≤ p.length := (List.dropWhile_sublist _).length_le
  unfold strchrnul at h
  rw [h] at hle
  exact hle

/-- The `for` loop, from the position `p` of `PATH` on. -/
def searchLoop (k : Kernel) (file : CString) (argv : Argv) (envp : Envp) (l : Nat)
    (seenEacces : Bool) (p : List UInt8) (c : Child) : ExecResult :=
  let element := p.take (p.length - (strchrnul p colon).length)
  if element.length ≥ l then
    match _h : strchrnul p colon with
    | [] => searchFailed seenEacces c
    | _ :: p' => searchLoop k file argv envp l seenEacces p' c
  else
    let b := stackBuffer k (l + file.bytes.length + 1)
    match execve k (.ofBuffer (candidateBuffer b element file)) argv envp c with
    | .replaced c => .replaced c
    | .returned c =>
        if keepsSearching c.errno then
          let seenEacces := seenEacces || c.errno = Errno.EACCES.val
          match _h : strchrnul p colon with
          | [] => searchFailed seenEacces c
          | _ :: p' => searchLoop k file argv envp l seenEacces p' c
        else .returned c
termination_by p.length
decreasing_by
  all_goals exact length_tail_strchrnul ‹_›

/-- `__execvpe`, with the value of `getenv("PATH")` as its first argument. -/
def execvpe (path : Option CString) : ExecFn := fun k file argv envp c =>
  let c := { c with errno := Errno.ENOENT.val }
  if file.bytes = [] then .returned c
  else if slash ∈ file.bytes then execve k file argv envp c
  else
    let path := path.getD defaultPath
    -- `strnlen(file, NAME_MAX+1) > NAME_MAX`
    if min file.bytes.length (NAME_MAX + 1) > NAME_MAX then
      .returned { c with errno := Errno.ENAMETOOLONG.val }
    else
      let l := min path.bytes.length (PATH_MAX - 1) + 1
      searchLoop k file argv envp l false path.bytes c

end LdbToolchain.Spawn
