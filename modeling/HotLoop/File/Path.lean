namespace HotLoop.Path

def isAbsolute (path : String) : Bool := path.startsWith "/"

def pushPart (rooted : Bool) (parts : List String) (part : String) : List String :=
  if part = "" ∨ part = "." then parts
  else if part = ".." then
    match parts with
    | [] => if rooted then [] else [".."]
    | last :: rest => if last = ".." then ".." :: parts else rest
  else part :: parts

def parts (path : String) : List String :=
  ((path.splitOn "/").foldl (pushPart (isAbsolute path)) []).reverse

def ofParts (parts : List String) : String := "/" ++ String.intercalate "/" parts

def clean (path : String) : String :=
  if isAbsolute path then ofParts (parts path)
  else if parts path = [] then "."
  else String.intercalate "/" (parts path)

def join (dir path : String) : String :=
  if dir = "" then if path = "" then "" else clean path
  else clean (dir ++ "/" ++ path)

def absolute (working path : String) : String :=
  if isAbsolute path then clean path else join working path

end HotLoop.Path
