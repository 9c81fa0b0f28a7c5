import Horreum.Arena.Access
import Horreum.Arena.MetaWords
import Horreum.Eviction.Flags
import Horreum.Compress.Checked
import Horreum.Config.Printing
import Horreum.Ds.Lists
import Horreum.Ds.Hashes
import Horreum.Ds.Sets
import Horreum.Transport.IndexMap
import Horreum.Transport.TwoIndexes
import Horreum.Transport.Scan
import Horreum.Transport.Unreadable
import Horreum.Transport.Reclaim
import Horreum.Transport.ServerShards
import Horreum.Persist.Expiries
import Horreum.Persist.Writers
import Horreum.Persist.CrashPoints
import Horreum.Persist.Reserved
import Horreum.Server.Counts
import Horreum.Server.Storage
import Horreum.Server.Lengths
