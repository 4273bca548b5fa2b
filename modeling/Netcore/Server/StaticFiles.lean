import Netcore.Lib.LexicalPath
import Netcore.Server.Runs

/-!
# Where static files are looked for

The path that the static handler opens is the static directory, the URL after it as it stands or percent-decoded, and all of
that up to the first NUL. Nothing in between looks at the components of the path, so that a URL can lead out of the directory.
-/

namespace Netcore

open LexicalPath

/-- A component of a path. -/
def moveOf (component : Bytes) : Move Bytes :=
  if component = [] ∨ component = [DOT] then .here else if component = [DOT, DOT] then .up else .into component

/-- The components of a path. -/
def moves (path : Bytes) : List (Move Bytes) := (path.splitOn SLASH).map moveOf

/-- After `.` and `..` have been resolved, the path is the static directory or lies in it. -/
def InStaticDir (path : Bytes) : Prop :=
  path.head? ≠ some SLASH ∧ Inside Connection.staticDir (resolve (moves path))

instance (path : Bytes) : Decidable (InStaticDir path) := inferInstanceAs (Decidable (_ ∧ _ ∧ _))

/-- The name that a URL asks for, up to the first NUL. -/
def requestedName (url : Bytes) : Bytes := Connection.cString (if isFormUrlEncode url then urlDecode url else url)

/-- The components of the static directory and of the requested name: they go into the static directory from where they start,
and not out of it again. -/
def StaysInside (url : Bytes) : Prop :=
  ∃ pre post, moves (Connection.staticDir ++ requestedName url) = pre ++ .into Connection.staticDir :: post ∧
    height pre = 0 ∧ Stays pre ∧ Stays post

/-- A file that is opened. -/
def Act.opened? : Act → Option Bytes
  | .openFile path => some path
  | _ => none

namespace Connection

variable {env : Env} {c : Connection}

/-- The files that the connection has opened. -/
def opened (c : Connection) : List Bytes := c.trace.filterMap Act.opened?

/-- A download begins with the file. -/
theorem processDownload_trace (env : Env) (h : c.req.state = .dataBegin) (path : Bytes) :
    (processDownload env c path).trace = c.trace ++ [.openFile (cString path)] := by
  unfold processDownload
  rw [h]
  dsimp only
  cases env.files (cString path) with
  | none => rfl
  | some content =>
    dsimp only
    split <;> rfl

/-- The path as it is opened. -/
theorem cString_staticPath (r : Request) : cString (staticPath r) = staticDir ++ requestedName r.getUrl := by
  unfold cString staticPath requestedName cString
  rw [List.takeWhile_append_of_pos (List.all_eq_true.mp (by decide))]
  rfl

/-- The static handler opens the file of the URL. -/
theorem callBack_opened (hroute : env.router.route c.req.getMethod c.req.getUrl = some .staticRes) (hcheck : env.downloadCheck = none)
    (hstate : c.req.state = .dataBegin) : (callBack env c).opened = c.opened ++ [staticDir ++ requestedName c.req.getUrl] := by
  unfold callBack
  rw [hroute]
  dsimp only
  unfold staticHandler opened
  rw [hcheck]
  dsimp only
  rw [processDownload_trace env (c := c.log (.handler .staticRes c.req)) hstate, log_req, cString_staticPath, log_trace]
  simp only [List.append_assoc, List.filterMap_append]
  rfl

/-- Every file that `call_back` opens lies in the static directory. -/
def OpensInside (env : Env) (c : Connection) : Prop :=
  ∃ paths, (callBack env c).opened = c.opened ++ paths ∧ ∀ path ∈ paths, InStaticDir path

theorem opensInside_of_opened {path : Bytes} (h : (callBack env c).opened = c.opened ++ [path]) :
    OpensInside env c ↔ InStaticDir path := by
  constructor
  · rintro ⟨paths, hp, hall⟩
    rw [h, List.append_cancel_left_eq] at hp
    exact hall path (by rw [← hp]; simp)
  · intro hin
    exact ⟨[path], h, by simpa using hin⟩

/-- The file that the static handler opens lies in the static directory exactly when the components of the path do not lead
out of it. -/
theorem opensInside_iff (hroute : env.router.route c.req.getMethod c.req.getUrl = some .staticRes)
    (hcheck : env.downloadCheck = none) (hstate : c.req.state = .dataBegin) : OpensInside env c ↔ StaysInside c.req.getUrl := by
  rw [opensInside_of_opened (callBack_opened hroute hcheck hstate), InStaticDir, resolve_inside_iff]
  have hhead : (staticDir ++ requestedName c.req.getUrl).head? ≠ some SLASH := by
    rw [List.head?_append_of_ne_nil _ (by decide)]
    decide
  exact and_iff_right hhead

end Connection

namespace Server

/-- An application that serves files only. -/
def filesOnly : Env := .bare [(staticResource, .staticRes)]

/-- A connection that has parsed the header of its first read. -/
def parsed (data : Bytes) : Connection :=
  (({ received .none data with req := ((received .none data).req.parseHeader none).1 } : Connection).log (.peek true)).checkKeepAlive

/-- `/a/../b.txt` does not lead out. -/
theorem opensInside_iff_b : Connection.OpensInside filesOnly (parsed (bytes "GET /a/../b.txt HTTP/1.1\r\n\r\n")) := by
  have hurl : (parsed (bytes "GET /a/../b.txt HTTP/1.1\r\n\r\n")).req.getUrl = bytes "/a/../b.txt" := by decide +kernel
  refine (Connection.opensInside_iff (by decide +kernel) rfl (by decide +kernel)).mpr ?_
  rw [hurl]
  exact ⟨[], [.into (bytes "a"), .up, .into (bytes "b.txt")], by decide +kernel, rfl, stays_nil, (stays_iff _).mpr rfl⟩

/-- `/%2e%2e/x.txt` does: the file that is opened is `www/../x.txt`. -/
theorem not_opensInside_up :
    serve filesOnly (fresh .none) [bytes "GET /%2e%2e/x.txt HTTP/1.1\r\n\r\n"] =
        [.processed (Connection.callBack filesOnly (parsed (bytes "GET /%2e%2e/x.txt HTTP/1.1\r\n\r\n"))) (.state .needWrite)] ∧
      ¬Connection.OpensInside filesOnly (parsed (bytes "GET /%2e%2e/x.txt HTTP/1.1\r\n\r\n")) := by
  refine ⟨by decide +kernel, ?_⟩
  rw [Connection.opensInside_of_opened (show _ = _ ++ [bytes "www/../x.txt"] by decide +kernel)]
  decide +kernel

end Server

end Netcore
