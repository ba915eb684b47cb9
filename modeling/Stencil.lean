import Stencil.Dict.Lemmas
import Stencil.Engine.Session
import Stencil.Json.Catalog
import Stencil.Json.Laws
import Stencil.Json.RenderError
import Stencil.Json.Settings
import Stencil.Json.Standard
import Stencil.Json.Value
import Stencil.Localization.Cursor
import Stencil.Proofs.Branch
import Stencil.Proofs.Concat
import Stencil.Proofs.FirstError
import Stencil.Proofs.Insertion
import Stencil.Proofs.DataRoundTrip
import Stencil.Proofs.RecordRoundTrip
import Stencil.Proofs.Reach
import Stencil.Proofs.Loop
import Stencil.Proofs.Redraw
import Stencil.Proofs.History
import Stencil.Proofs.LocaleSwitch
import Stencil.Proofs.Replay
import Stencil.Proofs.Unfolding
import Stencil.Proofs.Enclosure
import Stencil.Proofs.Pointing
import Stencil.Proofs.RoundTrip
import Stencil.Proofs.OwnText
import Stencil.Proofs.Simulation
import Stencil.Proofs.Leftover
import Stencil.Proofs.WriteLog
import Stencil.Proofs.CodePointOrder
import Stencil.Proofs.TwoReadings
import Stencil.Proofs.TableLoading
import Stencil.Proofs.Canonical
import Stencil.Proofs.Turnover
import Stencil.Proofs.Integers
import Stencil.Proofs.Search
import Stencil.Proofs.Calls
import Stencil.Proofs.Cursors
import Stencil.Proofs.Lawful
