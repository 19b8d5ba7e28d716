import Adnihilum.LinearProbing.Law
import Adnihilum.Balloc.Runs
import Adnihilum.Storage.Expiry
import Adnihilum.Storage.Gather
import Adnihilum.Server.Delivery
import Adnihilum.Server.Ownership
import Adnihilum.Server.Capacity
import Adnihilum.Server.Isolation
import Adnihilum.Server.Residue
import Adnihilum.Server.Consumption
import Adnihilum.Server.BlobId
import Adnihilum.Server.CtxPool
import Adnihilum.Client.Scrub
import Adnihilum.Client.Attempts
import Adnihilum.Client.Link
import Adnihilum.Assets.Find16
import Adnihilum.Assets.Passes
import Adnihilum.Assets.Replace
import Adnihilum.Debouncer.Key
import Adnihilum.Debouncer.Window
import Adnihilum.Server.Fate
import Adnihilum.Exchange
import Adnihilum.Debouncer.Flood
import Adnihilum.Server.Pages
import Adnihilum.Client.Shown
import Adnihilum.Qr.RoundTrip
