namespace HaloIndex

inductive Phase where
  | ground
  | resize
  deriving DecidableEq

def Phase.text : Phase → String
  | .ground => "Ground"
  | .resize => "Resize"

/-- Whether a slot is in use or given up; a slot that was given up survives until the next
commit. -/
inductive Lifecycle where
  | valid
  | deleted
  deriving DecidableEq

def Lifecycle.text : Lifecycle → String
  | .valid => "Valid"
  | .deleted => "Deleted"

end HaloIndex
