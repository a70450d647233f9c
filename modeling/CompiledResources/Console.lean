import CompiledResources.Notice

/-!
Notices on a console: one line each, with a time stamp and a tag for the level. Debug lines come
only from a verbose console.
-/

namespace CompiledResources

/-- Where a console line goes. -/
inductive Channel where
  | debug
  | log
  | warn
  | error
deriving DecidableEq, Repr

namespace Channel

/-- The channel is part of the standard output, not of the error output. -/
def isOutput : Channel → Bool
  | debug | log => true
  | warn | error => false

end Channel

namespace Console

/-- The channel of a level. -/
def channel : Level → Channel
  | .debug => .debug
  | .info => .log
  | .warn => .warn
  | .error => .error

/-- What stands between the time stamp and the message. -/
def tag : Level → Text
  | .debug => "[DEBUG] "
  | .info => ""
  | .warn => "[WARN] "
  | .error => "[ERROR] "

/-- The line of a message, if the console writes one. -/
def line? (verbose : Bool) (stamp : Text) (level : Level) (message : Text) :
    Option (Channel × Text) :=
  if level = .debug ∧ verbose = false then none
  else some (channel level, stamp ++ " " ++ tag level ++ message)

end Console
end CompiledResources
