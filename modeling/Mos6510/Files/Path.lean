/-!
# File names

Names are elements between slashes.  A clean name has no empty element, no
`.` unless it is the whole name, and `..` only at the front of a relative one.
-/

namespace Mos6510

namespace Path

def elements (name : String) : List String := name.splitOn "/"

def isRooted (name : String) : Bool := name.toList.head? == some '/'

/-- Follow one element from the elements before it, latest first. -/
def follow (rooted : Bool) (done : List String) (elem : String) : List String :=
  if elem == "" || elem == "." then done
  else if elem == ".." then
    match done with
    | [] => if rooted then [] else [".."]
    | last :: rest => if last == ".." then ".." :: done else rest
  else elem :: done

/-- The elements that are left of a name when `.` and `..` have been
followed. -/
def cleanElements (name : String) : List String :=
  ((elements name).foldl (follow (isRooted name)) []).reverse

def ofElements (rooted : Bool) (elems : List String) : String :=
  if rooted then "/" ++ "/".intercalate elems
  else if elems.isEmpty then "."
  else "/".intercalate elems

def clean (name : String) : String := ofElements (isRooted name) (cleanElements name)

/-- A name seen from a folder.  A name that starts at the root does so below
the folder. -/
def join (folder name : String) : String :=
  if folder.isEmpty then (if name.isEmpty then "" else clean name)
  else if name.isEmpty then clean folder
  else clean (folder ++ "/" ++ name)

/-- A name up to its last slash, and what follows. -/
def split (name : String) : String × String :=
  let base := (name.toList.reverse.takeWhile (· != '/')).reverse
  (String.ofList (name.toList.take (name.length - base.length)), String.ofList base)

def folderOf (name : String) : String := clean (split name).1

/-- Names below the root of a file system: clean, relative, and not leaving
it. -/
def isBelow (name : String) : Bool :=
  name == "." || (elements name).all fun e => e != "" && e != "." && e != ".."

/-- The part of a name from its last dot, if there is one in its last
element. -/
def extension (name : String) : String :=
  let tail := name.toList.reverse.takeWhile fun c => c != '.' && c != '/'
  let len := name.length - tail.length
  if 0 < len && (name.toList.drop (len - 1)).head? == some '.' then
    String.ofList (name.toList.drop (len - 1))
  else ""

def withoutExtension (name : String) : String :=
  String.ofList (name.toList.take (name.length - (extension name).length))

/-- The name of a file on the host, from the root, as seen from a folder. -/
def absolute (folder name : String) : String :=
  if isRooted name then clean name else join folder name

/-- Drop the elements that two names start with. -/
def dropShared : List String → List String → List String × List String
  | a :: as, b :: bs => if a == b then dropShared as bs else (a :: as, b :: bs)
  | as, bs => (as, bs)

/-- The name of a file as seen from a folder; both start at the root. -/
def relative (folder name : String) : String :=
  let (ups, downs) := dropShared (cleanElements folder) (cleanElements name)
  ofElements false (ups.map (fun _ => "..") ++ downs)

/-- Does a clean relative name stay below its folder? -/
def isLocal (name : String) : Bool :=
  !name.isEmpty && !isRooted name && (cleanElements name).head? != some ".."

end Path

end Mos6510
