import ProxyBroker.Persist.Ndjson
import ProxyBroker.Watch

namespace Watch

-- What is read from the file again, if there is one.
def reload (S : Serde) (file : Option Bytes) : Option (List Proxy) :=
  file.bind (Persist.readNdjson S)

-- What the watcher does once the file has not been written to for a while.
def onChange (S : Serde) (file : Option Bytes) : Async Unit := do
  match reload S file with
  | some desired => reconcile desired
  | none         => return

end Watch
